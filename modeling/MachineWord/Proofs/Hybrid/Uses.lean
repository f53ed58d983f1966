import Mathlib
import MachineWord.Proofs.Hybrid.Accesses
import MachineWord.Proofs.Memory.Refinement

/-!
# Uses of hybrids

Most uses of a hybrid are questions, which leave the store as it is (`reads_access`). An invariant
of stores has to look at the others only: the expansion, the exchange of the fields, and the stores
of words and of ints. A step has the outcome of the use that it makes (`step_use_of_made`), and a
hybrid that has not been made is not offered (`step_use_of_missing`).
-/

set_option autoImplicit false

namespace MachineWord

namespace HybridStore

variable {M : Model} {φ : Type} {store : HybridStore M φ}

/-! ## Heaps -/

section Heap

variable {α : Type} {access : Access BumpHeap α}

theorem inHeap_of_ok {a : α} {heap : BumpHeap} (done : access store.heap = .ok a heap) :
    inHeap access store = .ok a { store with heap } := by
  rw [inHeap, done]

theorem inHeap_of_error {fault : Fault} (failed : access store.heap = .error fault store.heap) :
    inHeap access store = .error fault store := by
  rw [inHeap, failed]

theorem after_inHeap (access : Access BumpHeap α) :
    (inHeap access).after store = { store with heap := access.after store.heap } := by
  rw [Access.after, Access.after, inHeap]
  cases access store.heap <;> rfl

theorem reads_inHeap (reads : access.Reads) :
    (inHeap access : Access (HybridStore M φ) α).Reads := by
  intro store
  rcases reads.cases store.heap with ⟨a, done⟩ | ⟨fault, failed⟩
  · exact Access.after_of_ok (inHeap_of_ok done)
  · exact Access.after_of_error (inHeap_of_error failed)

end Heap

theorem push_eq (h : Hybrid M φ) (store : HybridStore M φ) :
    push h store = .ok store.hybrids.size { store with hybrids := store.hybrids.push h } := rfl

/-- The bytes of the region can always be asked for. -/
theorem snapshot_eq (store : HybridStore M φ) :
    snapshot store =
      .ok (store.heap.region.bytesAt 0 store.heap.region.size) store := by
  rw [snapshot, Access.query, Region.snapshot_eq]

theorem reads_snapshot : (snapshot : Access (HybridStore M φ) _).Reads := .query _

/-! ## Questions -/

/-- Whether a use asks for something only. -/
def Use.isQuestion : Use φ → Bool
  | .expand _ | .setFields _ | .setWord _ _ | .setInt _ _ => false
  | _ => true

variable [TailFields M φ] [ToString φ] {i : Nat} {h : Hybrid M φ} {u : Use φ}

/-- A question leaves the store as it is. -/
theorem reads_access (i : Nat) (h : Hybrid M φ) (question : u.isQuestion = true) :
    (access i h u : Access (HybridStore M φ) _).Reads := by
  have asks {α : Type} {access : Access BumpHeap α} (reads : access.Reads) (answer : α → Answer φ) :
      (do return answer (← inHeap access) : Access (HybridStore M φ) (Answer φ)).Reads :=
    .bind (reads_inHeap reads) fun _ => .pure _
  cases u with
  | expand length => contradiction
  | setFields fields => contradiction
  | setWord index pattern => contradiction
  | setInt index value => contradiction
  | state => exact .pure _
  | print => exact .pure _
  | length => exact asks h.reads_length _
  | firstWord => exact asks h.reads_firstWord _
  | lastWord => exact asks h.reads_lastWord _
  | firstInt => exact asks h.reads_firstInt _
  | lastInt => exact asks h.reads_lastInt _
  | getWord index => exact asks (h.reads_getWord index) _
  | getInt index => exact asks (h.reads_getInt index) _
  | dump => exact asks h.reads_dumpTail _

/-! ## Steps -/

/-- A step with an outcome. -/
theorem step_of_outcome {s : Step φ} {access : Access (HybridStore M φ) (Answer φ)}
    (found : store.outcome? s = some (access store)) :
    store.step s = ((access.answer store).mapError .fault, access.after store) := by
  rw [step, found, Access.answer, Access.after]
  cases access store <;> rfl

theorem step_poke (address pattern : BitVec 64) : store.step (.poke address pattern) =
    (((poke address pattern).answer store).mapError .fault, (poke address pattern).after store) :=
  step_of_outcome rfl

theorem step_use_of_made (made : store.hybrids[i]? = some h) (u : Use φ) :
    store.step (.use i u) =
      (((access i h u).answer store).mapError .fault, (access i h u).after store) :=
  step_of_outcome (by rw [outcome?, made, Option.map_some])

theorem step_use_of_missing (missing : store.hybrids[i]? = none) (u : Use φ) :
    store.step (.use i u) = (.error .notOffered, store) := by
  rw [step, outcome?, missing, Option.map_none]

theorem step_use_of_ok {answer : Answer φ} {next : HybridStore M φ}
    (made : store.hybrids[i]? = some h) (done : access i h u store = .ok answer next) :
    store.step (.use i u) = (.ok answer, next) := by
  rw [step_use_of_made made, Access.answer_of_ok done, Access.after_of_ok done]
  rfl

theorem step_use_of_error {fault : Fault} {last : HybridStore M φ}
    (made : store.hybrids[i]? = some h) (failed : access i h u store = .error fault last) :
    store.step (.use i u) = (.error (.fault fault), last) := by
  rw [step_use_of_made made, Access.answer_of_error failed, Access.after_of_error failed]
  rfl

theorem exists_made {answer : Answer φ} (answered : (store.step (.use i u)).1 = .ok answer) :
    ∃ h, store.hybrids[i]? = some h := by
  cases made : store.hybrids[i]? with
  | some h => exact ⟨h, rfl⟩
  | none =>
      rw [step_use_of_missing made] at answered
      cases answered

end HybridStore

end MachineWord
