import MachineWord.Memory.Access

/-!
# Accesses to related memories

Two memories of different types are compared by a relation between them. An access to one of them
and an access to the other are alike if both give the same answer or the same fault and leave
related memories. What is put together from alike parts is alike.
-/

set_option autoImplicit false

namespace MachineWord

namespace Access

variable {μ ν α β : Type} {R : μ → ν → Prop} {m : μ} {n : ν}

/-- Two accesses, each to a memory of its own, answer alike and leave related memories. -/
def Alike (R : μ → ν → Prop) (m : μ) (n : ν) (access : Access μ α) (access' : Access ν α) : Prop :=
  access.answer m = access'.answer n ∧ R (access.after m) (access'.after n)

namespace Alike

variable {access : Access μ α} {access' : Access ν α}

theorem of_ok {a : α} {changed : μ} {changed' : ν} (done : access m = .ok a changed)
    (done' : access' n = .ok a changed') (related : R changed changed') :
    Alike R m n access access' := by
  rw [Alike, answer_of_ok done, answer_of_ok done', after_of_ok done, after_of_ok done']
  exact ⟨rfl, related⟩

theorem of_error {fault : Fault} {changed : μ} {changed' : ν}
    (failed : access m = .error fault changed) (failed' : access' n = .error fault changed')
    (related : R changed changed') : Alike R m n access access' := by
  rw [Alike, answer_of_error failed, answer_of_error failed', after_of_error failed,
    after_of_error failed']
  exact ⟨rfl, related⟩

/-- Alike accesses both succeed with one answer, or both fail with one fault. -/
theorem cases (alike : Alike R m n access access') :
    (∃ a changed changed', access m = .ok a changed ∧ access' n = .ok a changed' ∧
      R changed changed') ∨
    (∃ fault changed changed', access m = .error fault changed ∧
      access' n = .error fault changed' ∧ R changed changed') := by
  obtain ⟨same, related⟩ := alike
  cases done : access m with
  | ok a changed =>
      rw [answer_of_ok done] at same
      rw [after_of_ok done] at related
      exact .inl ⟨a, changed, _, rfl, eq_of_answer same.symm, related⟩
  | error fault changed =>
      rw [answer_of_error done] at same
      rw [after_of_error done] at related
      cases done' : access' n with
      | ok a changed' =>
          rw [answer_of_ok done'] at same
          cases same
      | error fault' changed' =>
          rw [answer_of_error done'] at same
          rw [after_of_error done'] at related
          cases same
          exact .inr ⟨fault, changed, changed', rfl, rfl, related⟩

theorem pure (related : R m n) (a : α) :
    Alike R m n (Pure.pure a : Access μ α) (Pure.pure a : Access ν α) :=
  of_ok rfl rfl related

theorem fail (related : R m n) (fault : Fault) :
    Alike R m n (Access.fail fault : Access μ α) (Access.fail fault : Access ν α) :=
  of_error rfl rfl related

theorem query (related : R m n) {ask : μ → Except Fault α} {ask' : ν → Except Fault α}
    (same : ask m = ask' n) : Alike R m n (.query ask) (.query ask') := by
  rw [Alike, answer_query, answer_query, Reads.query, Reads.query]
  exact ⟨same, related⟩

theorem bind (first : Alike R m n access access') {then_ : α → Access μ β}
    {then_' : α → Access ν β}
    (rest : ∀ a changed changed', R changed changed' →
      Alike R changed changed' (then_ a) (then_' a)) :
    Alike R m n (access >>= then_) (access' >>= then_') := by
  rcases first.cases with ⟨a, changed, changed', done, done', related⟩ |
    ⟨fault, changed, changed', failed, failed', related⟩
  · rw [Alike, answer_bind_of_ok done, answer_bind_of_ok done', after_bind_of_ok done,
      after_bind_of_ok done']
    exact rest a changed changed' related
  · exact of_error (bind_of_error failed) (bind_of_error failed') related

end Alike

end Access

end MachineWord
