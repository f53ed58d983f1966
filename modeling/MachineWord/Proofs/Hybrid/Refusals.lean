import Mathlib
import MachineWord.Proofs.Hybrid.Independence

/-!
# Refused steps have no effect

Each use of a hybrid makes all of its checks before it changes anything. The checks only read, the
change is made as a whole or not at all, and what comes after the change cannot fail any more:
such an access is atomic (`Access.Atomic`). One invariant is needed for this. The address space of
a word reaches the end of the region, so the length of a tail can be written wherever there is
room for the tail. It is preserved by every step of every program, also by one that changes the
bytes of the region behind the back of the hybrids.

So a refused step leaves the region, the address of the next tail and all hybrids as they are, and
the steps after it are answered as if it had not been made (`refused_steps_have_no_effect`). An
expansion makes a new hybrid and leaves the one that it expands without a tail.
-/

set_option autoImplicit false

namespace MachineWord

namespace Access

variable {μ α β : Type} {P : μ → Prop}

/-- An access that keeps a property of the memory, and leaves the memory as it is if it fails. -/
def Atomic (P : μ → Prop) (access : Access μ α) : Prop :=
  ∀ memory, P memory → (∃ a changed, access memory = .ok a changed ∧ P changed) ∨
    ∃ fault, access memory = .error fault memory

/-- An access that keeps a property of the memory and does not fail. -/
def Succeeds (P : μ → Prop) (access : Access μ α) : Prop :=
  ∀ memory, P memory → ∃ a changed, access memory = .ok a changed ∧ P changed

namespace Succeeds

theorem atomic {access : Access μ α} (succeeds : access.Succeeds P) : access.Atomic P :=
  fun memory holds => .inl (succeeds memory holds)

theorem pure (a : α) : (Pure.pure a : Access μ α).Succeeds P :=
  fun memory holds => ⟨a, memory, rfl, holds⟩

theorem bind {first : Access μ α} {then_ : α → Access μ β} (succeeds : first.Succeeds P)
    (succeeds_then : ∀ a, (then_ a).Succeeds P) : (first >>= then_).Succeeds P := by
  intro memory holds
  obtain ⟨a, changed, done, kept⟩ := succeeds memory holds
  obtain ⟨b, last, done', kept'⟩ := succeeds_then a changed kept
  exact ⟨b, last, (bind_of_ok done).trans done', kept'⟩

end Succeeds

namespace Atomic

theorem of_reads {access : Access μ α} (reads : access.Reads) : access.Atomic P := by
  intro memory holds
  rcases reads.cases memory with ⟨a, done⟩ | failed
  · exact .inl ⟨a, memory, done, holds⟩
  · exact .inr failed

/-- Checks before an access. -/
theorem bind_of_reads {first : Access μ α} {then_ : α → Access μ β} (reads : first.Reads)
    (atomic : ∀ a, (then_ a).Atomic P) : (first >>= then_).Atomic P := by
  intro memory holds
  rcases reads.cases memory with ⟨a, done⟩ | ⟨fault, failed⟩
  · rw [bind_of_ok done]
    exact atomic a memory holds
  · exact .inr ⟨fault, bind_of_error failed⟩

/-- What comes after an access and does not fail. -/
theorem bind_of_succeeds {first : Access μ α} {then_ : α → Access μ β} (atomic : first.Atomic P)
    (succeeds : ∀ a, (then_ a).Succeeds P) : (first >>= then_).Atomic P := by
  intro memory holds
  rcases atomic memory holds with ⟨a, changed, done, kept⟩ | ⟨fault, failed⟩
  · rw [bind_of_ok done]
    exact .inl (succeeds a changed kept)
  · exact .inr ⟨fault, bind_of_error failed⟩

end Atomic

end Access

/-! ## Heaps -/

namespace BumpHeap

variable {M : Model}

theorem atomic_write (p : Pointer M) (s : Scalar) (offset : Offset M) (x : s.Carrier M) :
    (inRegion (p.write s offset x)).Atomic (Fits M) := by
  intro heap fits
  by_cases inside : Pointer.Inside heap.region p s offset
  · left
    obtain ⟨region, written, patched⟩ := p.write_of_inside offset inside x
    exact ⟨(), { heap with region }, by rw [inRegion, written], fits.of_patched patched⟩
  · right
    exact ⟨_, by rw [inRegion, p.write_of_not_inside offset inside x]⟩

theorem atomic_expand (length : Int32) : (BumpHeap.expand M length).Atomic (Fits M) := by
  intro heap fits
  rcases expand_cases fits length with ⟨last, given, fits', -⟩ | refused
  · exact .inl ⟨_, last, given, fits'⟩
  · exact .inr refused

end BumpHeap

namespace Hybrid

variable {M : Model} {φ : Type} (h : Hybrid M φ)

theorem atomic_expand (length : Int32) :
    (h.expand length : Access BumpHeap _).Atomic (BumpHeap.Fits M) := by
  rw [expand]
  split
  · exact .of_reads (.fail _)
  · split
    · exact .of_reads (.fail _)
    · exact (BumpHeap.atomic_expand length).bind_of_succeeds fun _ => .pure _

variable [TailFields M φ]

theorem atomic_setWord (index : Int32) (x : Word M) :
    (h.setWord index x : Access BumpHeap _).Atomic (BumpHeap.Fits M) :=
  .bind_of_reads (h.reads_checkWord index) fun _ => BumpHeap.atomic_write _ _ _ _

theorem atomic_setInt (index value : Int32) :
    (h.setInt index value : Access BumpHeap _).Atomic (BumpHeap.Fits M) :=
  .bind_of_reads (h.reads_checkInt index) fun _ => BumpHeap.atomic_write _ _ _ _

omit [TailFields M φ] in
/-- A question about a tail that has been answered is one about an expanded hybrid. -/
theorem exists_origin {h : Hybrid M φ} {α : Type} {question : Reference M → Access BumpHeap α}
    {heap last : BumpHeap} {a : α} (answered : (h.expandedOrigin >>= question) heap = .ok a last) :
    ∃ origin, h.origin = some origin := by
  cases expanded : h.origin with
  | some origin => exact ⟨origin, rfl⟩
  | none =>
      rw [Access.bind_of_error (expandedOrigin_of_unexpanded expanded)] at answered
      cases answered

section Outside

variable {h} {heap : BumpHeap} {first last index : Int32}
  (outside : index.toInt < first.toInt ∨ last.toInt < index.toInt)

include outside

theorem checkWord_of_outside (first_eq : h.firstWord heap = .ok first heap)
    (last_eq : h.lastWord heap = .ok last heap) :
    h.checkWord index heap = .error (.wordIndex index.toInt first.toInt last.toInt) heap := by
  obtain ⟨origin, expanded⟩ := exists_origin first_eq
  rw [checkWord_eq expanded index first_eq last_eq, if_neg]
  · rfl
  · rw [Int32.le_iff_toInt_le, Int32.le_iff_toInt_le]
    omega

theorem checkInt_of_outside (first_eq : h.firstInt heap = .ok first heap)
    (last_eq : h.lastInt heap = .ok last heap) :
    h.checkInt index heap = .error (.intIndex index.toInt first.toInt last.toInt) heap := by
  obtain ⟨origin, expanded⟩ := exists_origin first_eq
  rw [checkInt_eq expanded index first_eq last_eq, if_neg]
  · rfl
  · rw [Int32.le_iff_toInt_le, Int32.le_iff_toInt_le]
    omega

end Outside

end Hybrid

/-! ## Stores -/

namespace HybridStore

variable {M : Model} {φ : Type} {store : HybridStore M φ}

/-- The heap of a store fits into the address space of a word. -/
abbrev Fits (store : HybridStore M φ) : Prop := store.heap.Fits M

theorem atomic_inHeap {α : Type} {access : Access BumpHeap α}
    (atomic : access.Atomic (BumpHeap.Fits M)) :
    (inHeap access : Access (HybridStore M φ) α).Atomic Fits := by
  intro store fits
  rcases atomic store.heap fits with ⟨a, heap, done, fits'⟩ | ⟨fault, failed⟩
  · exact .inl ⟨a, { store with heap }, inHeap_of_ok done, fits'⟩
  · exact .inr ⟨fault, inHeap_of_error failed⟩

theorem succeeds_push (h : Hybrid M φ) : (push h).Succeeds Fits :=
  fun _ fits => ⟨_, _, rfl, fits⟩

theorem succeeds_put (i : Nat) (h : Hybrid M φ) : (put i h).Succeeds Fits :=
  fun _ fits => ⟨_, _, rfl, fits⟩

theorem succeeds_snapshot : (snapshot : Access (HybridStore M φ) _).Succeeds Fits :=
  fun store fits => ⟨_, store, snapshot_eq store, fits⟩

theorem atomic_poke (address pattern : BitVec 64) :
    (poke address pattern : Access (HybridStore M φ) (Answer φ)).Atomic Fits :=
  (atomic_inHeap (BumpHeap.atomic_write _ _ _ _)).bind_of_succeeds fun _ =>
    succeeds_snapshot.bind fun _ => .pure _

variable [TailFields M φ] [ToString φ]

/-- A use of a hybrid is made as a whole or not at all. -/
theorem atomic_access (i : Nat) (h : Hybrid M φ) (u : Use φ) :
    (access i h u).Atomic Fits := by
  cases u with
  | expand length =>
      exact (atomic_inHeap (h.atomic_expand length)).bind_of_succeeds fun expanded =>
        (succeeds_push expanded).bind fun _ => succeeds_snapshot.bind fun _ => .pure _
  | setFields fields => exact ((succeeds_put i _).bind fun _ => .pure _).atomic
  | setWord index pattern =>
      exact (atomic_inHeap (h.atomic_setWord index _)).bind_of_succeeds fun _ =>
        succeeds_snapshot.bind fun _ => .pure _
  | setInt index value =>
      exact (atomic_inHeap (h.atomic_setInt index value)).bind_of_succeeds fun _ =>
        succeeds_snapshot.bind fun _ => .pure _
  | _ => exact .of_reads (reads_access i h rfl)

/-- A step is answered and keeps the heap within the address space, or is refused without a
change. -/
theorem step_cases (fits : store.Fits) (s : Step φ) :
    (∃ answer next, store.step s = (.ok answer, next) ∧ next.Fits) ∨
      ∃ cause, store.step s = (.error cause, store) := by
  have outcome {access : Access (HybridStore M φ) (Answer φ)} (atomic : access.Atomic Fits)
      (step_eq : store.step s = ((access.answer store).mapError .fault, access.after store)) :
      (∃ answer next, store.step s = (.ok answer, next) ∧ next.Fits) ∨
        ∃ cause, store.step s = (.error cause, store) := by
    rw [step_eq]
    rcases atomic store fits with ⟨answer, next, done, fits'⟩ | ⟨fault, failed⟩
    · rw [Access.answer_of_ok done, Access.after_of_ok done]
      exact .inl ⟨answer, next, rfl, fits'⟩
    · rw [Access.answer_of_error failed, Access.after_of_error failed]
      exact .inr ⟨.fault fault, rfl⟩
  cases s with
  | new fields => exact .inl ⟨_, _, rfl, fits⟩
  | poke address pattern => exact outcome (atomic_poke address pattern) (step_poke _ _)
  | use i u =>
      cases made : store.hybrids[i]? with
      | some h => exact outcome (atomic_access i h u) (step_use_of_made made u)
      | none => exact .inr ⟨.notOffered, step_use_of_missing made u⟩

/-- The heap stays within the address space, whatever the program does. -/
theorem fits_run (fits : store.Fits) (program : List (Step φ)) :
    (store.run program).2.Fits := by
  induction program generalizing store with
  | nil => exact fits
  | cons s rest ih =>
      rw [run]
      rcases step_cases fits s with ⟨answer, next, done, fits'⟩ | ⟨cause, refused⟩
      · rw [done]
        exact ih fits'
      · rw [refused]
        exact ih fits

/-! ## What is refused -/

/-- Whether a use needs the tail of a hybrid. -/
def Use.needsTail : Use φ → Bool
  | .expand _ | .state | .print | .setFields _ => false
  | _ => true

/-- The index of the word that a use accesses. -/
def Use.word? : Use φ → Option Int32
  | .getWord index | .setWord index _ => some index
  | _ => none

/-- The index of the int that a use accesses. -/
def Use.int? : Use φ → Option Int32
  | .getInt index | .setInt index _ => some index
  | _ => none

/-- The uses of hybrids that are refused, with their faults. The words and the ints that may be
used are those between the answers to the questions for the first and the last one. -/
inductive Refused (store : HybridStore M φ) : Step φ → Fault → Prop where
  | alreadyExpanded {i : Nat} {h : Hybrid M φ} {origin : Reference M} {length : Int32}
      (made : store.hybrids[i]? = some h) (expanded : h.origin = some origin) :
      Refused store (.use i (.expand length)) .alreadyExpanded
  | negativeLength {i : Nat} {h : Hybrid M φ} {length : Int32}
      (made : store.hybrids[i]? = some h) (unexpanded : h.origin = none)
      (negative : length.toInt < 0) :
      Refused store (.use i (.expand length)) (.negativeLength length.toInt)
  | heapExhausted {i : Nat} {h : Hybrid M φ} {length : Int32}
      (made : store.hybrids[i]? = some h) (unexpanded : h.origin = none)
      (nonneg : 0 ≤ length.toInt)
      (full : ¬ store.heap.region.contains store.heap.next (BumpHeap.tailBytes M length) = true) :
      Refused store (.use i (.expand length)) .heapExhausted
  | unexpanded {i : Nat} {h : Hybrid M φ} {u : Use φ} (made : store.hybrids[i]? = some h)
      (unexpanded : h.origin = none) (needs : u.needsTail = true) :
      Refused store (.use i u) .unexpanded
  | word {i : Nat} {u : Use φ} {index : Int32} {first last : Int} (used : u.word? = some index)
      (first_eq : (store.step (.use i .firstWord)).1 = .ok (.number first))
      (last_eq : (store.step (.use i .lastWord)).1 = .ok (.number last))
      (outside : index.toInt < first ∨ last < index.toInt) :
      Refused store (.use i u) (.wordIndex index.toInt first last)
  | int {i : Nat} {u : Use φ} {index : Int32} {first last : Int} (used : u.int? = some index)
      (first_eq : (store.step (.use i .firstInt)).1 = .ok (.number first))
      (last_eq : (store.step (.use i .lastInt)).1 = .ok (.number last))
      (outside : index.toInt < first ∨ last < index.toInt) :
      Refused store (.use i u) (.intIndex index.toInt first last)

section Uses

variable {i : Nat} {h : Hybrid M φ} {u : Use φ}

/-- A number that a hybrid has been asked for, and that has been answered, is found in the heap. -/
theorem number_of_answered {question : Access BumpHeap Int32} {n : Int} (reads : question.Reads)
    (made : store.hybrids[i]? = some h)
    (asks : access i h u = do return .number (← inHeap question).toInt)
    (answered : (store.step (.use i u)).1 = .ok (.number n)) :
    ∃ k, question store.heap = .ok k store.heap ∧ k.toInt = n := by
  rcases reads.cases store.heap with ⟨k, done⟩ | ⟨fault, failed⟩
  · have outcome : access i h u store = .ok (.number k.toInt) store := by
      rw [asks]
      exact Access.bind_of_ok (inHeap_of_ok done)
    rw [step_use_of_ok made outcome] at answered
    cases answered
    exact ⟨k, done, rfl⟩
  · have outcome : access i h u store = .error fault store := by
      rw [asks]
      exact Access.bind_of_error (inHeap_of_error failed)
    rw [step_use_of_error made outcome] at answered
    cases answered

/-- Without a tail nothing that needs one is answered. -/
theorem access_of_unexpanded (unexpanded : h.origin = none) (needs : u.needsTail = true) :
    access i h u store = .error .unexpanded store := by
  have missing : h.expandedOrigin store.heap = .error .unexpanded store.heap :=
    Hybrid.expandedOrigin_of_unexpanded unexpanded
  have refused {α : Type} {use : Access BumpHeap α} {later : α → Access _ (Answer φ)}
      (failed : use store.heap = .error .unexpanded store.heap) :
      (inHeap use >>= later) store = .error .unexpanded store :=
    Access.bind_of_error (inHeap_of_error failed)
  have noLength : h.length store.heap = .error .unexpanded store.heap :=
    Access.bind_of_error missing
  cases u with
  | expand length => contradiction
  | state => contradiction
  | print => contradiction
  | setFields fields => contradiction
  | length => exact refused noLength
  | firstWord => exact refused (Access.bind_of_error missing)
  | lastWord => exact refused (Access.bind_of_error noLength)
  | firstInt => exact refused (Access.bind_of_error missing)
  | lastInt => exact refused (Access.bind_of_error noLength)
  | getWord index => exact refused (Access.bind_of_error (Access.bind_of_error missing))
  | getInt index => exact refused (Access.bind_of_error (Access.bind_of_error missing))
  | setWord index pattern => exact refused (Hybrid.setWord_of_unexpanded unexpanded _ _)
  | setInt index value => exact refused (Hybrid.setInt_of_unexpanded unexpanded _ _)
  | dump => exact refused (Access.bind_of_error (Access.bind_of_error missing))

/-- A word whose index is refused is neither read nor written. -/
theorem access_of_checkWord {index : Int32} {fault : Fault} (used : u.word? = some index)
    (refused : h.checkWord index store.heap = .error fault store.heap) :
    access i h u store = .error fault store := by
  cases u with
  | getWord index' =>
      cases used
      exact Access.bind_of_error (inHeap_of_error (Access.bind_of_error refused))
  | setWord index' pattern =>
      cases used
      exact Access.bind_of_error (inHeap_of_error (Access.bind_of_error refused))
  | _ => contradiction

/-- An int whose index is refused is neither read nor written. -/
theorem access_of_checkInt {index : Int32} {fault : Fault} (used : u.int? = some index)
    (refused : h.checkInt index store.heap = .error fault store.heap) :
    access i h u store = .error fault store := by
  cases u with
  | getInt index' =>
      cases used
      exact Access.bind_of_error (inHeap_of_error (Access.bind_of_error refused))
  | setInt index' value =>
      cases used
      exact Access.bind_of_error (inHeap_of_error (Access.bind_of_error refused))
  | _ => contradiction

/-- What is refused fails with its fault, and changes nothing. -/
theorem Refused.step_eq {s : Step φ} {fault : Fault} (refused : Refused store s fault) :
    store.step s = (.error (.fault fault), store) := by
  cases refused with
  | alreadyExpanded made expanded =>
      exact step_use_of_error made (Access.bind_of_error
        (inHeap_of_error (Hybrid.expand_of_expanded expanded _)))
  | negativeLength made unexpanded negative =>
      exact step_use_of_error made (Access.bind_of_error
        (inHeap_of_error (Hybrid.expand_of_negative unexpanded negative)))
  | heapExhausted made unexpanded nonneg full =>
      have failed := (Hybrid.expand_of_unexpanded unexpanded nonneg).trans
        (Access.bind_of_error (BumpHeap.expand_of_exhausted full))
      exact step_use_of_error made (Access.bind_of_error (inHeap_of_error failed))
  | unexpanded made unexpanded needs =>
      exact step_use_of_error made (access_of_unexpanded unexpanded needs)
  | word used first_eq last_eq outside =>
      obtain ⟨h, made⟩ := exists_made first_eq
      obtain ⟨first, found, rfl⟩ := number_of_answered h.reads_firstWord made rfl first_eq
      obtain ⟨last, found', rfl⟩ := number_of_answered h.reads_lastWord made rfl last_eq
      exact step_use_of_error made (access_of_checkWord used
        (Hybrid.checkWord_of_outside outside found found'))
  | int used first_eq last_eq outside =>
      obtain ⟨h, made⟩ := exists_made first_eq
      obtain ⟨first, found, rfl⟩ := number_of_answered h.reads_firstInt made rfl first_eq
      obtain ⟨last, found', rfl⟩ := number_of_answered h.reads_lastInt made rfl last_eq
      exact step_use_of_error made (access_of_checkInt used
        (Hybrid.checkInt_of_outside outside found found'))

/-- With room for a tail, a hybrid without one is expanded. -/
theorem step_expand_of_room {length : Int32} (fits : store.Fits)
    (made : store.hybrids[i]? = some h) (unexpanded : h.origin = none)
    (nonneg : 0 ≤ length.toInt)
    (room : store.heap.region.contains store.heap.next (BumpHeap.tailBytes M length) = true) :
    ∃ answer heap, store.step (.use i (.expand length)) = (.ok answer,
      ⟨heap, store.hybrids.push { h with origin := some (.ofBits store.heap.next) }⟩) ∧
      heap.Fits M := by
  obtain ⟨heap, given, fits', -⟩ := BumpHeap.expand_of_room fits room
  have expanded : h.expand length store.heap =
      .ok { h with origin := some (.ofBits store.heap.next) } heap :=
    (Hybrid.expand_of_unexpanded unexpanded nonneg).trans (Access.bind_of_ok given)
  have done : ∃ answer, access i h (.expand length) store = .ok answer
      ⟨heap, store.hybrids.push { h with origin := some (.ofBits store.heap.next) }⟩ := by
    rw [access, Access.bind_of_ok (inHeap_of_ok expanded), Access.bind_of_ok (push_eq _ _),
      Access.bind_of_ok (snapshot_eq _)]
    exact ⟨_, rfl⟩
  obtain ⟨answer, done⟩ := done
  exact ⟨answer, heap, step_use_of_ok made done, fits'⟩

/-- An expansion that is answered has made a new hybrid with the same fields and a tail, and has
left the hybrid without a tail. -/
theorem of_step_expand {length : Int32} {answer : Answer φ} {next : HybridStore M φ}
    (fits : store.Fits) (done : store.step (.use i (.expand length)) = (.ok answer, next)) :
    ∃ h, store.hybrids[i]? = some h ∧ h.origin = none ∧
      next.hybrids = store.hybrids.push { h with origin := some (.ofBits store.heap.next) } ∧
      next.hybrids[i]? = some h ∧ next.Fits := by
  obtain ⟨h, made⟩ := exists_made (congrArg Prod.fst done)
  have notRefused {fault : Fault} (refused : Refused store (.use i (.expand length)) fault) :
      False := by
    rw [refused.step_eq] at done
    cases done
  cases expanded : h.origin with
  | some origin => exact (notRefused (.alreadyExpanded made expanded)).elim
  | none =>
      have nonneg : 0 ≤ length.toInt := by
        by_contra negative
        exact notRefused (.negativeLength made expanded (Int.not_le.1 negative))
      have room : store.heap.region.contains store.heap.next (BumpHeap.tailBytes M length) =
          true := by
        by_contra full
        exact notRefused (.heapExhausted made expanded nonneg full)
      obtain ⟨answer', heap, done', fits'⟩ := step_expand_of_room fits made expanded nonneg room
      cases done.symm.trans done'
      refine ⟨h, made, expanded, rfl, ?_, fits'⟩
      rw [Array.getElem?_push, if_neg, made]
      exact (Array.getElem?_eq_some_iff.1 made).1.ne

end Uses

/-- **Refused steps have no effect.** Run any program over an empty bump heap in zeros that fits
into the address space of a word. Whatever is listed as refused fails with its fault. A step that
fails, for whatever cause, leaves the store as it is, the bytes of the region, the address of the
next tail and the fields and origins of all hybrids, and all later steps are answered as if it had
not been made. An expansion that is answered makes a new hybrid with the fields of the one that it
expands, which stays as it is, without a tail. It can be expanded again to every length for which
there is room. -/
theorem refused_steps_have_no_effect {base : BitVec 64} {size : Nat} {order : ByteOrder}
    {region : Region} (made : Region.zeros base size order = .ok region)
    (fits : base.toNat + size ≤ 2 ^ M.bits) (program : List (Step φ)) :
    let store := ((empty region : HybridStore M φ).run program).2
    (∀ (s : Step φ) (fault : Fault), Refused store s fault →
      (store.step s).1 = .error (.fault fault)) ∧
    (∀ (s : Step φ) (cause : StepError), (store.step s).1 = .error cause →
      (store.step s).2 = store ∧
      ∀ rest, store.run (s :: rest) = (.error cause :: (store.run rest).1, (store.run rest).2)) ∧
    ∀ (i : Nat) (length : Int32) (answer : Answer φ) (next : HybridStore M φ),
      store.step (.use i (.expand length)) = (.ok answer, next) →
      ∃ (h : Hybrid M φ) (origin : Reference M),
        store.hybrids[i]? = some h ∧ h.origin = none ∧
        next.hybrids = store.hybrids.push { h with origin := some origin } ∧
        next.hybrids[i]? = some h ∧
        ∀ length' : Int32, 0 ≤ length'.toInt →
          next.heap.region.contains next.heap.next (BumpHeap.tailBytes M length') = true →
          ∃ answer' last, next.step (.use i (.expand length')) = (.ok answer', last) := by
  intro store
  have storeFits : store.Fits := fits_run (fits_empty made fits) program
  refine ⟨?_, ?_, ?_⟩
  · intro s fault refused
    rw [refused.step_eq]
  · intro s cause failed
    rcases step_cases storeFits s with ⟨answer, next, done, -⟩ | ⟨cause', refused⟩
    · rw [done] at failed
      cases failed
    · rw [refused] at failed
      cases failed
      exact ⟨by rw [refused], fun rest => by rw [run, refused]⟩
  · intro i length answer next done
    obtain ⟨h, found, unexpanded, pushed, kept, nextFits⟩ := of_step_expand storeFits done
    refine ⟨h, _, found, unexpanded, pushed, kept, ?_⟩
    intro length' nonneg room
    obtain ⟨answer', heap, again, -⟩ := step_expand_of_room nextFits kept unexpanded nonneg room
    exact ⟨answer', _, again⟩

/-- A tail of two words, which leaves room for one more word in a region of four. -/
def oneTail : List (Step NumberedFields) := [.new ⟨7, ⟨0, -1, none⟩⟩, .use 0 (.expand 2)]

/-- A tail that just does not fit, a word behind the last one, and a tail without words, for which
there is room. -/
theorem refused_steps_have_no_effect_of_one_tail :
    ∃ region, Region.zeros 0x1000 16 .little = .ok region ∧
      let store := ((empty region : HybridStore .hosted32 NumberedFields).run oneTail).2
      (store.step (.use 0 (.expand 1))).1 = .error (.fault .heapExhausted) ∧
      (store.step (.use 0 (.expand 1))).2 = store ∧
      (store.step (.use 1 (.setWord 2 5))).1 = .error (.fault (.wordIndex 2 0 1)) ∧
      ∃ answer last, store.step (.use 0 (.expand 0)) = (.ok answer, last) := by
  let region : Region := ⟨0x1000, 16, .little, Array.replicate 2 0, by decide, by decide, rfl⟩
  have made : Region.zeros 0x1000 16 .little = .ok region := rfl
  obtain ⟨refuses, unchanged, -⟩ := refused_steps_have_no_effect (M := .hosted32) made
    (by decide) oneTail
  obtain ⟨-, -, expands⟩ := refused_steps_have_no_effect (M := .hosted32) made (by decide)
    [.new (⟨7, ⟨0, -1, none⟩⟩ : NumberedFields)]
  refine ⟨region, made, by decide +kernel,
    (unchanged _ (.fault .heapExhausted) (by decide +kernel)).1, ?_, ?_⟩
  · exact refuses _ _ (@Refused.word _ _ _ _ _ 1 (.setWord 2 5) 2 0 1 rfl (by decide +kernel)
      (by decide +kernel) (by decide))
  · obtain ⟨h, origin, -, -, -, -, again⟩ := expands 0 2
      (.expanded 1 ⟨7, ⟨0, -1, none⟩⟩ (some "*1000") (2 :: List.replicate 15 0)) _
      (Prod.ext (by decide +kernel) rfl)
    exact again 0 (by decide) (by decide +kernel)

end HybridStore

end MachineWord
