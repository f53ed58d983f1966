import Mathlib
import MachineWord.Proofs.Hybrid.Effects

/-!
# Where tails start

Regions start at a multiple of eight, and a bump heap takes whole words from its region. So the
address of the next tail is always a multiple of the size of a word, and so is the origin of every
tail that has been given out. Each effect of a step preserves this (`aligned_of_effect`), so it is
an invariant of every program over one heap, whatever it stores, and whether its steps fail or not
(`aligned_run`).

An access keeps a property of the memory if the property holds afterwards also where the access
fails (`Access.Keeps`). Accesses to the bytes of the region keep every property of the addresses.
-/

set_option autoImplicit false

namespace MachineWord

namespace Access

variable {μ α β : Type} {P : μ → Prop} {Q : α → Prop} {R : β → Prop}

/-- An access that keeps a property of the memory, whether it fails or not, and whose answer has a
property. -/
def Keeps (P : μ → Prop) (Q : α → Prop) (access : Access μ α) : Prop :=
  ∀ memory, P memory → P (access.after memory) ∧ ∀ a, access.answer memory = .ok a → Q a

namespace Keeps

theorem pure {a : α} (holds : Q a) : (Pure.pure a : Access μ α).Keeps P Q := by
  intro memory kept
  refine ⟨kept, fun b done => ?_⟩
  cases done
  exact holds

theorem bind {first : Access μ α} {then_ : α → Access μ β} (keeps : first.Keeps P Q)
    (keeps_then : ∀ a, Q a → (then_ a).Keeps P R) : (first >>= then_).Keeps P R := by
  intro memory holds
  obtain ⟨kept, answered⟩ := keeps memory holds
  cases outcome : first memory with
  | ok a changed =>
      rw [after_of_ok outcome] at kept
      rw [after_bind_of_ok outcome, answer_bind_of_ok outcome]
      exact keeps_then a (answered a (answer_of_ok outcome)) changed kept
  | error fault changed =>
      rw [after_of_error outcome] at kept
      have failed : (first >>= then_) memory = .error fault changed := bind_of_error outcome
      rw [after_of_error failed, answer_of_error failed]
      exact ⟨kept, by rintro b ⟨⟩⟩

end Keeps

end Access

/-! ## Heaps -/

namespace BumpHeap

variable {M : Model}

/-- A multiple of the size of a word. -/
def IsAligned (M : Model) (address : BitVec 64) : Prop := M.bytes ∣ address.toNat

/-- The address of the next tail is a multiple of the size of a word. -/
def Aligned (M : Model) (heap : BumpHeap) : Prop := IsAligned M heap.next

theorem bytes_dvd_eight (M : Model) : M.bytes ∣ 8 := by
  cases size : M.size <;> simp [Model.bytes, WordSize.bytes, size]

theorem bytes_dvd_two_pow_bits (M : Model) : M.bytes ∣ 2 ^ M.bits := by
  cases size : M.size <;> simp [Model.bytes, WordSize.bytes, Model.bits, WordSize.bits, size]

theorem isAligned_base (region : Region) : IsAligned M region.base :=
  (bytes_dvd_eight M).trans (Nat.dvd_of_mod_eq_zero region.base_aligned)

/-- An address behind some words is a multiple again, also if it is cut off. -/
theorem IsAligned.add_words {address : BitVec 64} (aligned : IsAligned M address) (words : Nat) :
    IsAligned M (address + BitVec.ofNat 64 (words * M.bytes)) := by
  have space : M.bytes ∣ 2 ^ 64 := (bytes_dvd_eight M).trans (by decide)
  rw [IsAligned, BitVec.toNat_add, BitVec.toNat_ofNat, Nat.add_mod_mod]
  exact (Nat.dvd_mod_iff space).2 (aligned.add (Nat.dvd_mul_left _ _))

theorem IsAligned.ofBits {address : BitVec 64} (aligned : IsAligned M address) :
    IsAligned M (.ofBits address : Reference M).bits := by
  rw [IsAligned, Value.toNat_bits_ofBits]
  exact (Nat.dvd_mod_iff (bytes_dvd_two_pow_bits M)).2 aligned

theorem keeps_inRegion {α : Type} (access : Access Region α) :
    (inRegion access).Keeps (Aligned M) fun _ => True := by
  intro heap aligned
  rw [after_inRegion]
  exact ⟨aligned, fun _ _ => trivial⟩

theorem keeps_take (length : Int32) :
    (take (tailBytes M length)).Keeps (Aligned M) (IsAligned M) := by
  intro heap aligned
  by_cases room : heap.region.contains heap.next (tailBytes M length) = true
  · have taken : take (tailBytes M length) heap = .ok heap.next
        { heap with next := heap.next + BitVec.ofNat 64 (tailBytes M length) } := if_pos room
    rw [Access.after_of_ok taken, Access.answer_of_ok taken]
    refine ⟨aligned.add_words _, fun address given => ?_⟩
    cases given
    exact aligned
  · have refused : take (tailBytes M length) heap = .error .heapExhausted heap := if_neg room
    rw [Access.after_of_error refused, Access.answer_of_error refused]
    exact ⟨aligned, by rintro address ⟨⟩⟩

theorem keeps_expand (length : Int32) :
    (BumpHeap.expand M length).Keeps (Aligned M) fun origin => IsAligned M origin.bits :=
  .bind (keeps_take length) fun _ aligned => .bind (keeps_inRegion _) fun _ _ =>
    .pure aligned.ofBits

end BumpHeap

/-! ## Hybrids -/

namespace Hybrid

open BumpHeap (Aligned IsAligned)

variable {M : Model} {φ : Type}

/-- The tail of a hybrid, if there is one, starts at a multiple of the size of a word. -/
def StartsAligned (h : Hybrid M φ) : Prop :=
  ∀ origin, h.origin = some origin → IsAligned M origin.bits

end Hybrid

/-! ## Programs -/

namespace HybridStore

open BumpHeap (IsAligned)

variable {M : Model} {φ : Type} {store : HybridStore M φ}

/-- All tails of a store, and the next one, start at multiples of the size of a word. -/
structure Aligned (store : HybridStore M φ) : Prop where
  heap : store.heap.Aligned M
  hybrids (i : Nat) (h : Hybrid M φ) (made : store.hybrids[i]? = some h) : h.StartsAligned

theorem aligned_empty (region : Region) : (empty region : HybridStore M φ).Aligned where
  heap := BumpHeap.isAligned_base region
  hybrids := by rintro i h ⟨⟩

/-- A tail that is given out starts at a multiple of the size of a word, and so does the next
one. -/
theorem aligned_of_effect {granted : Option (Nat × Int32)} {next : HybridStore M φ}
    (aligned : store.Aligned) (effect : Effect store granted next) : next.Aligned := by
  have asked (length : Int32) := BumpHeap.keeps_expand length store.heap aligned.heap
  refine ⟨?_, fun i h found origin expanded => ?_⟩
  · cases effect with
    | refused failed => exact Access.after_of_error failed ▸ (asked _).1
    | expanded found given => exact Access.after_of_ok given ▸ (asked _).1
    | _ => exact aligned.heap
  · have held : next.origin? i = some origin := (origin?_of_made found).trans expanded
    rcases effect.origin?_cases i with same | ⟨-, length, other, -, given, made⟩
    · rw [same] at held
      obtain ⟨h', found', expanded'⟩ := Option.bind_eq_some_iff.1 held
      exact aligned.hybrids i h' found' origin expanded'
    · cases made.symm.trans held
      exact (asked length).2 origin (Access.answer_of_ok given)

variable [TailFields M φ] [ToString φ]

/-- All tails start at multiples of the size of a word, whatever the program does. -/
theorem aligned_run (aligned : store.Aligned) (program : List (Step φ)) :
    (store.run program).2.Aligned := by
  induction program generalizing store with
  | nil => exact aligned
  | cons s rest ih => exact ih (aligned_of_effect aligned (effect_step store s))

end HybridStore

end MachineWord
