import Mathlib
import MachineWord.Proofs.Hybrid.Independence
import MachineWord.Proofs.Hybrid.Views

/-!
# What a step can do

A step of a program over one heap changes the store in one of few ways, whatever it asks for and
whether it fails or not: it adds a hybrid without a tail, exchanges the fields of a hybrid, writes
to the region, or asks the heap for a tail (`effect_step`). What all of them preserve is preserved
by every program.
-/

set_option autoImplicit false

namespace MachineWord

namespace Access

variable {μ α β : Type}

/-- Questions after an access do not change what it leaves behind. -/
theorem after_bind_of_reads {first : Access μ α} {then_ : α → Access μ β}
    (reads_then : ∀ a, (then_ a).Reads) (memory : μ) :
    (first >>= then_).after memory = first.after memory := by
  cases outcome : first memory with
  | ok a changed => rw [after_bind_of_ok outcome, after_of_ok outcome, reads_then a changed]
  | error fault changed => rw [after_of_error (bind_of_error outcome), after_of_error outcome]

/-- Checks before an access end it, or do not change what it leaves behind. -/
theorem after_bind_cases {first : Access μ α} (reads : first.Reads) (then_ : α → Access μ β)
    (memory : μ) : (first >>= then_).after memory = memory ∨
      ∃ a, first.answer memory = .ok a ∧
        (first >>= then_).after memory = (then_ a).after memory := by
  rcases reads.cases memory with ⟨a, done⟩ | ⟨fault, failed⟩
  · exact .inr ⟨a, answer_of_ok done, after_bind_of_ok done⟩
  · exact .inl (after_of_error (bind_of_error failed))

end Access

namespace HybridStore

variable {M : Model} {φ : Type}

/-- The number of a hybrid that a step has made with a tail, and the number of words that the tail
was given. -/
def grant : Step φ × Except StepError (Answer φ) → Option (Nat × Int32)
  | (.use _ (.expand length), .ok (.expanded i _ _ _)) => some (i, length)
  | _ => none

/-- What a step does to a store, with the tail that it gives to a new hybrid. -/
inductive Effect (store : HybridStore M φ) : Option (Nat × Int32) → HybridStore M φ → Prop where
  | same : Effect store none store
  | made (fields : φ) :
      Effect store none { store with hybrids := store.hybrids.push (.new fields) }
  | changed {i : Nat} {h : Hybrid M φ} (found : store.hybrids[i]? = some h) (fields : φ) :
      Effect store none { store with hybrids := store.hybrids.setIfInBounds i { h with fields } }
  | written (p : Pointer M) (s : Scalar) (offset : Offset M) (x : s.Carrier M) :
      Effect store none
        { store with heap.region := (p.write s offset x).after store.heap.region }
  | refused {length : Int32} {fault : Fault} {heap : BumpHeap}
      (failed : BumpHeap.expand M length store.heap = .error fault heap) :
      Effect store none { store with heap }
  | expanded {i : Nat} {h : Hybrid M φ} {length : Int32} {origin : Reference M} {heap : BumpHeap}
      (found : store.hybrids[i]? = some h)
      (given : BumpHeap.expand M length store.heap = .ok origin heap) :
      Effect store (some (store.hybrids.size, length))
        ⟨heap, store.hybrids.push { h with origin := some origin }⟩

variable {store : HybridStore M φ}

namespace Effect

variable {next : HybridStore M φ} {granted : Option (Nat × Int32)}

/-- A hybrid has the tail that it had before, or has been made with one. -/
theorem origin?_cases (effect : Effect store granted next) (j : Nat) :
    next.origin? j = store.origin? j ∨ store.origin? j = none ∧ ∃ n origin,
      granted = some (j, n) ∧ BumpHeap.expand M n store.heap = .ok origin next.heap ∧
        next.origin? j = some origin := by
  have absent {j : Nat} (last : j = store.hybrids.size) : store.origin? j = none := by
    rw [last, origin?, Array.getElem?_size]
    rfl
  cases effect with
  | same => exact .inl rfl
  | made fields =>
      left
      rw [origin?_push]
      split
      next last => exact (absent last).symm
      next => rfl
  | @changed i h found fields =>
      left
      rw [origin?, origin?, Array.getElem?_setIfInBounds]
      by_cases here : i = j
      · subst here
        rw [if_pos rfl, if_pos (Array.getElem?_eq_some_iff.1 found).1, found]
        rfl
      · rw [if_neg here]
  | written p s offset x => exact .inl rfl
  | refused failed => exact .inl rfl
  | @expanded i h length origin heap found given =>
      have pushed := origin?_push store heap { h with origin := some origin } j
      by_cases last : j = store.hybrids.size
      · rw [if_pos last] at pushed
        exact .inr ⟨absent last, length, origin, by rw [last], given, pushed⟩
      · rw [if_neg last] at pushed
        exact .inl pushed

/-- A tail that is given belongs to a hybrid afterwards. -/
theorem of_granted {j : Nat} {n : Int32} (effect : Effect store (some (j, n)) next) :
    ∃ origin, BumpHeap.expand M n store.heap = .ok origin next.heap ∧
      next.origin? j = some origin := by
  cases effect with
  | @expanded i h length origin heap found given =>
      exact ⟨origin, given, (origin?_push store heap _ _).trans (if_pos rfl)⟩

/-- The region stays at its place, and the heap within the addresses of the model. -/
theorem place (effect : Effect store granted next) (fits : store.heap.Fits M) :
    next.heap.Fits M ∧ next.heap.region.base = store.heap.region.base ∧
      next.heap.region.size = store.heap.region.size := by
  have asked {length : Int32} {heap : BumpHeap}
      (outcome : (BumpHeap.expand M length).after store.heap = heap) :
      heap.Fits M ∧ heap.region.base = store.heap.region.base ∧
        heap.region.size = store.heap.region.size := by
    rcases BumpHeap.expand_cases fits length with ⟨last, given, fits', patched, -⟩ | ⟨fault, failed⟩
    · rw [Access.after_of_ok given] at outcome
      subst outcome
      exact ⟨fits', patched.base_eq, patched.size_eq⟩
    · rw [Access.after_of_error failed] at outcome
      subst outcome
      exact ⟨fits, rfl, rfl⟩
  cases effect with
  | same => exact ⟨fits, rfl, rfl⟩
  | made fields => exact ⟨fits, rfl, rfl⟩
  | changed found fields => exact ⟨fits, rfl, rfl⟩
  | written p s offset x =>
      obtain ⟨base_eq, size_eq, -, -⟩ := p.agreesBeyond_write offset store.heap.region x
      refine ⟨⟨?_, ?_, ?_⟩, base_eq, size_eq⟩
      · rw [base_eq]
        exact fits.base_le
      · rw [base_eq, size_eq]
        exact fits.next_le
      · rw [base_eq, size_eq]
        exact fits.stop_le
  | refused failed => exact asked (Access.after_of_error failed)
  | expanded found given => exact asked (Access.after_of_ok given)

end Effect

/-- A write behind a check that only reads is made, or the heap stays as it is. -/
theorem after_write_cases {α : Type} {check : Access BumpHeap α} (reads : check.Reads)
    (place : α → Pointer M) (s : Scalar) (offset : Offset M) (x : s.Carrier M) (heap : BumpHeap) :
    (check >>= fun a => BumpHeap.inRegion ((place a).write s offset x)).after heap = heap ∨
      ∃ p : Pointer M,
        (check >>= fun a => BumpHeap.inRegion ((place a).write s offset x)).after heap =
          { heap with region := (p.write s offset x).after heap.region } := by
  rcases Access.after_bind_cases reads
    (fun a => BumpHeap.inRegion ((place a).write s offset x)) heap with same | ⟨a, -, after⟩
  · exact .inl same
  · exact .inr ⟨place a, after.trans (BumpHeap.after_inRegion _ _)⟩

/-- A write by a hybrid is an effect of its step, with whatever questions follow. -/
theorem effect_of_write {β : Type} {access : Access BumpHeap Unit} {s : Scalar} {offset : Offset M}
    {x : s.Carrier M} {answer : Unit → Access (HybridStore M φ) β} (reads : ∀ a, (answer a).Reads)
    (cases : access.after store.heap = store.heap ∨ ∃ p : Pointer M, access.after store.heap =
      { store.heap with region := (p.write s offset x).after store.heap.region }) :
    Effect store none ((inHeap access >>= answer).after store) := by
  rw [Access.after_bind_of_reads reads, after_inHeap]
  rcases cases with same | ⟨p, written⟩
  · rw [same]
    exact .same
  · rw [written]
    exact .written p s offset x

/-- Questions have no effect. -/
theorem effect_of_reads {β : Type} {access : Access (HybridStore M φ) β} (reads : access.Reads) :
    Effect store none (access.after store) := by
  rw [reads store]
  exact .same

variable [TailFields M φ] [ToString φ]

/-- An expansion makes a new hybrid with the tail that the heap has given, or none. -/
theorem effect_expand {i : Nat} {h : Hybrid M φ} (found : store.hybrids[i]? = some h)
    (length : Int32) :
    Effect store (grant (.use i (.expand length),
      ((access i h (.expand length)).answer store).mapError .fault))
      ((access i h (.expand length)).after store) := by
  have refuses {fault : Fault} {heap : BumpHeap}
      (failed : h.expand length store.heap = .error fault heap) :
      access i h (.expand length) store = .error fault { store with heap } :=
    Access.bind_of_error (by rw [inHeap, failed])
  rcases Hybrid.expand_cases h store.heap length with ⟨⟨-, -, given⟩, refused⟩ | ⟨fault, failed⟩
  · cases outcome : BumpHeap.expand M length store.heap with
    | ok origin heap =>
        have done : access i h (.expand length) store = .ok
            (.expanded store.hybrids.size h.fields (originText { h with origin := some origin })
              (heap.region.bytesAt 0 heap.region.size))
            ⟨heap, store.hybrids.push { h with origin := some origin }⟩ := by
          rw [access, Access.bind_of_ok (inHeap_of_ok (given origin heap outcome)),
            Access.bind_of_ok (push_eq _ _), Access.bind_of_ok (snapshot_eq _)]
          rfl
        rw [Access.answer_of_ok done, Access.after_of_ok done]
        exact .expanded found outcome
    | error fault heap =>
        have failed := refuses (refused fault heap outcome)
        rw [Access.answer_of_error failed, Access.after_of_error failed]
        exact .refused outcome
  · have failed := refuses failed
    rw [Access.answer_of_error failed, Access.after_of_error failed]
    exact .same

/-- The effect of a use of a hybrid. -/
theorem effect_access {i : Nat} {h : Hybrid M φ} (found : store.hybrids[i]? = some h) (u : Use φ) :
    Effect store (grant (.use i u, ((access i h u).answer store).mapError .fault))
      ((access i h u).after store) := by
  have shows (_ : Unit) : (do return .bytes (← snapshot) :
      Access (HybridStore M φ) (Answer φ)).Reads := .bind reads_snapshot fun _ => .pure _
  cases u with
  | expand length => exact effect_expand found length
  | setFields fields => exact .changed found fields
  | setWord index pattern =>
      exact effect_of_write shows (after_write_cases (h.reads_checkWord index) _ .word _ _ _)
  | setInt index value =>
      exact effect_of_write shows (after_write_cases (h.reads_checkInt index) _ .int _ _ _)
  | _ => exact effect_of_reads (reads_access i h rfl)

/-- The effect of a step. -/
theorem effect_step (store : HybridStore M φ) (s : Step φ) :
    Effect store (grant (s, (store.step s).1)) (store.step s).2 := by
  cases s with
  | new fields => exact .made fields
  | poke address pattern =>
      let place : Pointer M := ⟨.ofBits address⟩
      have written := BumpHeap.after_inRegion
        (place.write .word .zero (.ofBits pattern : Word M)) store.heap
      rw [step_poke]
      exact effect_of_write (fun _ => .bind reads_snapshot fun _ => .pure _) (.inr ⟨place, written⟩)
  | use i u =>
      cases found : store.hybrids[i]? with
      | some h =>
          rw [step_use_of_made found]
          exact effect_access found u
      | none =>
          rw [step_use_of_missing found]
          have silent : grant (.use i u, (.error .notOffered : Except StepError (Answer φ))) =
              none := by
            cases u <;> rfl
          rw [silent]
          exact .same

end HybridStore

end MachineWord
