import MachineWord.Memory.Basic

/-!
# Outcomes of accesses

An access to a memory has an answer and leaves a memory behind, whether it fails or not. Many
accesses only read: they leave every memory as it is, and so does whatever is put together
from them.
-/

set_option autoImplicit false

namespace MachineWord

theorem exists_of_bind_eq_ok {α β : Type} {first : Except Fault α} {rest : α → Except Fault β}
    {b : β} (done : first >>= rest = .ok b) : ∃ a, first = .ok a ∧ rest a = .ok b := by
  cases first with
  | ok a => exact ⟨a, rfl, done⟩
  | error fault => cases done

namespace Access

variable {μ α β : Type}

/-- The answer of an access to a memory. -/
def answer (access : Access μ α) (memory : μ) : Except Fault α :=
  match access memory with
  | .ok a _ => .ok a
  | .error fault _ => .error fault

/-- The memory after an access. -/
def after (access : Access μ α) (memory : μ) : μ :=
  match access memory with
  | .ok _ changed => changed
  | .error _ changed => changed

/-- An access that leaves every memory as it is. -/
def Reads (access : Access μ α) : Prop := ∀ memory, access.after memory = memory

section Outcome

variable {access : Access μ α} {memory changed : μ} {a : α} {fault : Fault}

theorem answer_of_ok (done : access memory = .ok a changed) : access.answer memory = .ok a := by
  rw [answer, done]

theorem answer_of_error (failed : access memory = .error fault changed) :
    access.answer memory = .error fault := by
  rw [answer, failed]

theorem after_of_ok (done : access memory = .ok a changed) : access.after memory = changed := by
  rw [after, done]

theorem after_of_error (failed : access memory = .error fault changed) :
    access.after memory = changed := by
  rw [after, failed]

end Outcome

/-! ## Primitive accesses -/

theorem answer_query (query : μ → Except Fault α) (memory : μ) :
    (Access.query query).answer memory = query memory := by
  rw [answer, Access.query]
  cases query memory <;> rfl

theorem query_of_error {query : μ → Except Fault α} {memory : μ} {fault : Fault}
    (failed : query memory = .error fault) : Access.query query memory = .error fault memory := by
  rw [Access.query, failed]

theorem update_of_ok {change : μ → Except Fault μ} {memory changed : μ}
    (made : change memory = .ok changed) : Access.update change memory = .ok () changed := by
  rw [Access.update, made]

theorem update_of_error {change : μ → Except Fault μ} {memory : μ} {fault : Fault}
    (failed : change memory = .error fault) :
    Access.update change memory = .error fault memory := by
  rw [Access.update, failed]

theorem exchange_of_ok {step : μ → Except Fault (α × μ)} {memory changed : μ} {a : α}
    (made : step memory = .ok (a, changed)) : Access.exchange step memory = .ok a changed := by
  rw [Access.exchange, made]

theorem exchange_of_error {step : μ → Except Fault (α × μ)} {memory : μ} {fault : Fault}
    (failed : step memory = .error fault) :
    Access.exchange step memory = .error fault memory := by
  rw [Access.exchange, failed]

/-! ## Sequences -/

theorem answer_map (f : α → β) (access : Access μ α) (memory : μ) :
    (f <$> access).answer memory = (access.answer memory).map f := by
  change answer (EStateM.map f access) memory = _
  rw [answer, answer, EStateM.map]
  cases access memory <;> rfl

theorem after_map (f : α → β) (access : Access μ α) (memory : μ) :
    (f <$> access).after memory = access.after memory := by
  change after (EStateM.map f access) memory = _
  rw [after, after, EStateM.map]
  cases access memory <;> rfl

theorem bind_of_ok {first : Access μ α} {then_ : α → Access μ β} {memory changed : μ} {a : α}
    (done : first memory = .ok a changed) : (first >>= then_) memory = then_ a changed := by
  change EStateM.bind first then_ memory = _
  rw [EStateM.bind, done]

theorem bind_of_error {first : Access μ α} {then_ : α → Access μ β} {memory changed : μ}
    {fault : Fault} (failed : first memory = .error fault changed) :
    (first >>= then_) memory = .error fault changed := by
  change EStateM.bind first then_ memory = _
  rw [EStateM.bind, failed]

theorem answer_bind_of_ok {first : Access μ α} {then_ : α → Access μ β} {memory changed : μ} {a : α}
    (done : first memory = .ok a changed) :
    (first >>= then_).answer memory = (then_ a).answer changed := by
  rw [answer, bind_of_ok done, answer]

theorem after_bind_of_ok {first : Access μ α} {then_ : α → Access μ β} {memory changed : μ} {a : α}
    (done : first memory = .ok a changed) :
    (first >>= then_).after memory = (then_ a).after changed := by
  rw [after, bind_of_ok done, after]

theorem eq_of_answer {access : Access μ α} {memory : μ} {a : α}
    (done : access.answer memory = .ok a) : access memory = .ok a (access.after memory) := by
  unfold answer at done
  unfold after
  cases result : access memory with
  | ok b changed =>
      rw [result] at done
      cases done
      rfl
  | error fault changed =>
      rw [result] at done
      cases done

/-- A sequence that is answered has had an answer to its first part. -/
theorem answer_bind_eq_ok {first : Access μ α} {then_ : α → Access μ β} {memory : μ} {b : β}
    (done : (first >>= then_).answer memory = .ok b) :
    ∃ a, first.answer memory = .ok a ∧ (then_ a).answer (first.after memory) = .ok b := by
  cases result : first memory with
  | ok a changed =>
      rw [answer_bind_of_ok result] at done
      rw [answer_of_ok result, after_of_ok result]
      exact ⟨a, rfl, done⟩
  | error fault changed =>
      rw [answer_of_error (bind_of_error result)] at done
      cases done

namespace Reads

theorem pure (a : α) : (Pure.pure a : Access μ α).Reads := fun _ => rfl

theorem fail (fault : Fault) : (Access.fail fault : Access μ α).Reads := fun _ => rfl

theorem query (query : μ → Except Fault α) : Reads (Access.query query) := by
  intro memory
  rw [after, Access.query]
  cases query memory <;> rfl

/-- An access that only reads answers or fails, and leaves the memory as it is. -/
theorem cases {access : Access μ α} (reads : access.Reads) (memory : μ) :
    (∃ a, access memory = .ok a memory) ∨ ∃ fault, access memory = .error fault memory := by
  have same := reads memory
  rw [after] at same
  cases done : access memory with
  | ok a changed =>
      rw [done] at same
      exact .inl ⟨a, congrArg (EStateM.Result.ok a) same⟩
  | error fault changed =>
      rw [done] at same
      exact .inr ⟨fault, congrArg (EStateM.Result.error fault) same⟩

theorem bind {first : Access μ α} {then_ : α → Access μ β} (reads : first.Reads)
    (reads_then : ∀ a, (then_ a).Reads) : (first >>= then_).Reads := by
  intro memory
  rcases reads.cases memory with ⟨a, done⟩ | ⟨fault, failed⟩
  · rw [after_bind_of_ok done]
    exact reads_then a memory
  · exact after_of_error (bind_of_error failed)

theorem ite {condition : Prop} [Decidable condition] {first second : Access μ α}
    (reads : first.Reads) (reads' : second.Reads) :
    (if condition then first else second).Reads := by
  split
  · exact reads
  · exact reads'

end Reads

end Access

end MachineWord
