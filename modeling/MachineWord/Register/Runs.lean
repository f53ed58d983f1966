import MachineWord.Register.Basic

/-!
# Runs of registers

A run is made of its first step and the run of the other steps: from the register that the step
leads to, or from the same register if the step fails.
-/

set_option autoImplicit false

namespace MachineWord

namespace Register

variable {M : Model} {r next last : Register M} {first : Step} {rest : List Step}
  {answers : List (Except StepError Query.Answer)}

theorem run_cons_of_ok {answer : Query.Answer} (stepped : r.step first = .ok (answer, next))
    (ran : next.run rest = (answers, last)) :
    r.run (first :: rest) = (.ok answer :: answers, last) := by
  rw [run, stepped]
  change (Except.ok answer :: (next.run rest).1, (next.run rest).2) = _
  rw [ran]

theorem run_cons_of_error {cause : StepError} (refused : r.step first = .error cause)
    (ran : r.run rest = (answers, last)) :
    r.run (first :: rest) = (.error cause :: answers, last) := by
  rw [run, refused]
  change (Except.error cause :: (r.run rest).1, (r.run rest).2) = _
  rw [ran]

end Register

end MachineWord
