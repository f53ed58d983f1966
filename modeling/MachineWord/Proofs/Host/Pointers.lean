import Mathlib
import MachineWord.Cursor.Basic
import MachineWord.Proofs.Host.Agreement

/-!
# Pointers into memories that agree

Each way to use a pointer reaches some spans of bytes (`Cursor.Use.spans`). Which ones depends on
the pointer and on the arguments, but not on a memory. If all of them lie within a buffer of the
machine and a region that agree, then the use is answered alike in both and leaves memories that
agree (`alike_access`).
-/

set_option autoImplicit false

namespace MachineWord

variable {M : Model}

/-! ## Spans -/

namespace Pointer

variable (p : Pointer M)

/-- The span of a byte of the array at the pointer. -/
def byteSpan (index : Int32) : Span := p.span .byte (scaled .byte 0 index)

/-- The spans of elements that are copied, `i` having been copied already. No element is reached
after an index that an int cannot hold. -/
def copySpans (s : Scalar) (displacement first : Int32) : (i count : Nat) → List Span
  | _, 0 => []
  | i, count + 1 =>
    match exactIndex (first.toInt + (wrapIndex i).toInt) with
    | .ok index =>
      p.span s (scaled s displacement index) :: copySpans s displacement first (i + 1) count
    | .error _ => []

/-- The spans of a number of bytes of the array at the pointer, from an index on. -/
def byteSpans : (index count : Nat) → List Span
  | _, 0 => []
  | index, count + 1 => p.byteSpan (wrapIndex index) :: byteSpans (index + 1) count

end Pointer

namespace Cursor

/-- The offset of a place. -/
def Place.toOffset (s : Scalar) : Place → Offset M
  | .offset y => .ofBits (y.pattern M)
  | .element displacement i => Pointer.scaled s displacement i
  | .index i => Pointer.scaled s 0 i
  | .here => Pointer.scaled s 0 0

/-- The spans of bytes that a use of a pointer reaches. -/
def Use.spans (p : Pointer M) : Use → List Span
  | .read s place => [p.span s (place.toOffset s)]
  | .write s place _ => [p.span s (place.toOffset s)]
  | .swapInt y _ _ => [p.span .int (.ofBits (y.pattern M))]
  | .swapWord _ y _ _ => [p.span .word (.ofBits (y.pattern M))]
  | .setMapBit bit => [p.byteSpan (wrapIndex (bit / 8))]
  | .orMapBits bit _ =>
    p.byteSpan (wrapIndex (bit / 8)) ::
      if bit % 8 > 0 then
        match exactIndex ((wrapIndex (bit / 8)).toInt + 1) with
        | .ok second => [p.byteSpan second]
        | .error _ => []
      else []
  | .copy .void _ _ _ _ _ => []
  | .copy (.scalar s) displacement first dst target count =>
    if target + count < UInt64.size ∧ target + count ≤ dst.length then
      p.copySpans s displacement first 0 count
    else []
  | .snapshot => []
  | .dump count => p.byteSpans 0 (wrapIndex count).toInt.toNat
  | .equals _ => []
  | .distinct _ => []
  | .loadNat count address => [⟨address.toNat, count⟩]
  | .storeNat count address _ => [⟨address.toNat, count⟩]
  | .loadBytes address count => [⟨address.toNat, count⟩]
  | .storeBytes address bytes => [⟨address.toNat, bytes.length⟩]
  | .swapNat size address _ _ => [⟨address.toNat, size.bytes⟩]

theorem readAt_eq {μ : Type} [Block μ] (p : Pointer M) (s : Scalar) (place : Place) :
    (readAt p s place : Access μ _) = p.read s (place.toOffset s) := by
  cases place <;> rfl

theorem writeAt_eq {μ : Type} [Block μ] (p : Pointer M) (s : Scalar) (x : s.Carrier M)
    (place : Place) : (writeAt p s x place : Access μ Unit) = p.write s (place.toOffset s) x := by
  cases place <;> rfl

end Cursor

/-! ## Alike accesses -/

namespace Agrees

variable {base : BitVec 64} {size : Nat} {b : HostBuffer} {r : Region}
  (agrees : Agrees base size b r) (p : Pointer M)

include agrees

section Typed

variable {s : Scalar} {offset : Offset M} (within : (p.span s offset).Within base size)

include within

theorem fetch_eq : p.fetch b s offset = p.fetch r s offset := by
  rw [Pointer.fetch, Pointer.fetch, agrees.loadNat_eq within]

theorem alike_read :
    Access.Alike (Agrees base size) b r (p.read s offset) (p.read s offset) :=
  .query agrees (agrees.fetch_eq p within)

theorem alike_write (x : s.Carrier M) :
    Access.Alike (Agrees base size) b r (p.write s offset x) (p.write s offset x) :=
  agrees.alike_storeNat within (s.encode M x)

end Typed

section Swap

variable {offset : Offset M}

theorem alike_swapInt (within : (p.span .int offset).Within base size) (expected new : Int32) :
    Access.Alike (Agrees base size) b r (p.swapInt offset expected new)
      (p.swapInt offset expected new) :=
  (agrees.alike_swap .w32 within _ _).bind fun _ _ _ changed => .pure changed _

theorem alike_swapWord {v : View} (within : (p.span .word offset).Within base size)
    (expected new : Value M v) :
    Access.Alike (Agrees base size) b r (p.swapWord offset expected new)
      (p.swapWord offset expected new) :=
  (agrees.alike_swap M.size within _ _).bind fun _ _ _ changed => .pure changed _

end Swap

/-! ## Bit maps -/

theorem alike_orByte {index : Int32} (within : (p.byteSpan index).Within base size)
    (mask : BitVec 8) :
    Access.Alike (Agrees base size) b r (p.orByte index mask) (p.orByte index mask) :=
  (agrees.alike_read p within).bind fun _ _ _ changed => changed.alike_write p within _

theorem alike_orMapBits {bit : Nat} {mask : BitVec 8}
    (within : ∀ x ∈ (Cursor.Use.orMapBits bit mask).spans p, x.Within base size) :
    Access.Alike (Agrees base size) b r (p.orMapBits bit mask) (p.orMapBits bit mask) := by
  obtain ⟨first, others⟩ := List.forall_mem_cons.1 within
  refine (agrees.alike_orByte p first _).bind ?_
  intro _ changed changed' later
  by_cases split : bit % 8 > 0
  · rw [if_pos split] at others
    rw [if_pos split, if_pos split]
    cases index_eq : exactIndex ((wrapIndex (bit / 8)).toInt + 1) with
    | ok second =>
        rw [index_eq] at others
        exact later.alike_orByte p (others _ List.mem_cons_self) _
    | error fault => exact .fail later fault
  · rw [if_neg split, if_neg split]
    exact .pure later ()

/-! ## Copies -/

theorem elementFrom_eq {s : Scalar} {displacement first : Int32} {i count : Nat}
    (within : ∀ x ∈ p.copySpans s displacement first i (count + 1), x.Within base size) :
    p.elementFrom b s displacement first i = p.elementFrom r s displacement first i := by
  rw [Pointer.copySpans] at within
  rw [Pointer.elementFrom, Pointer.elementFrom]
  cases index_eq : exactIndex (first.toInt + (wrapIndex i).toInt) with
  | error fault => rfl
  | ok index =>
      rw [index_eq] at within
      exact agrees.fetch_eq p (within _ List.mem_cons_self)

theorem copyFrom_eq {s : Scalar} {displacement first : Int32} (target : Nat) {i count : Nat}
    (within : ∀ x ∈ p.copySpans s displacement first i count, x.Within base size)
    (dst : Array (s.Carrier M)) :
    p.copyFrom b s displacement first target i count dst =
      p.copyFrom r s displacement first target i count dst := by
  induction count generalizing i dst with
  | zero => rfl
  | succ count ih =>
      rw [Pointer.copyFrom, Pointer.copyFrom, agrees.elementFrom_eq p within]
      cases found : p.elementFrom r s displacement first i with
      | error fault => rfl
      | ok value =>
          obtain ⟨index, index_eq, -⟩ := exists_of_bind_eq_ok found
          rw [Pointer.copySpans, index_eq] at within
          exact ih (fun x later => within x (List.mem_cons_of_mem _ later)) _

theorem copied_eq {kind : Kind} {displacement first : Int32} {dst : List (BitVec 64)}
    {target count : Nat}
    (within : ∀ x ∈ (Cursor.Use.copy kind displacement first dst target count).spans p,
      x.Within base size) :
    Cursor.copied b p kind displacement first dst target count =
      Cursor.copied r p kind displacement first dst target count := by
  cases kind with
  | void => rfl
  | scalar s =>
      have filled : p.copyScalars b s displacement first target count
            (dst.map (s.ofPattern M)).toArray =
          p.copyScalars r s displacement first target count (dst.map (s.ofPattern M)).toArray := by
        apply p.copyScalars_congr
        intro fits
        rw [List.size_toArray, List.length_map] at fits
        rw [Cursor.Use.spans, if_pos fits] at within
        exact agrees.copyFrom_eq p target within _
      exact congrArg (fun result => Cursor.Answer.copied
        (result.1.toList.map (s.datum M)) (result.2.map CopyError.fault)) filled

/-! ## Dumps -/

theorem bytesFrom_eq {index count : Nat}
    (within : ∀ x ∈ p.byteSpans index count, x.Within base size) :
    p.bytesFrom b index count = p.bytesFrom r index count := by
  induction count generalizing index with
  | zero => rfl
  | succ count ih =>
      obtain ⟨first, others⟩ := List.forall_mem_cons.1 within
      have held : p.element b .byte 0 (wrapIndex index) =
          p.element r .byte 0 (wrapIndex index) := agrees.fetch_eq p first
      rw [Pointer.bytesFrom, Pointer.bytesFrom, held, ih others]

end Agrees

end MachineWord
