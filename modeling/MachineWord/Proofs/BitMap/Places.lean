import Mathlib
import MachineWord.Memory.Region.Bits
import MachineWord.Pointer.BitMap
import MachineWord.Proofs.Pointer.Ways

/-!
# Places of the bits of a map

The bits of a map lie one after another from the address of its pointer on, modulo the number of
words (`mapBit`). A byte of the map is changed by reading it, setting the bits of a mask in it
and writing it back (`orByte_of_has`). Eight bits in a row lie in one byte if they start with its
first bit, and otherwise in two bytes, the window of the first bit. If the region has the window,
the bits of a mask are set in it, each at its own place (`orMapBits_of_window`).
-/

set_option autoImplicit false

namespace MachineWord

namespace Pointer

variable {M : Model} (p : Pointer M) {r : Region}

/-! ## Places -/

/-- The place of a bit of the map at a pointer: the address of its byte, and its number in the
byte. -/
def mapBit (n : Nat) : Nat × Nat := ((p.address.bits.toNat + n / 8) % 2 ^ M.bits, n % 8)

/-- The addresses of the bytes that hold eight bits of the map, from a bit on. -/
def window (n : Nat) : List Nat :=
  (p.mapBit n).1 :: if 0 < n % 8 then [(p.mapBit (n + 8)).1] else []

/-- The places of the bits of a mask that starts with a bit of the map. -/
def maskBits (n : Nat) (mask : BitVec 8) : Set (Nat × Nat) :=
  {place | ∃ k, mask.getLsbD k = true ∧ place = p.mapBit (n + k)}

/-- The address of a byte of the array at a pointer. -/
def byteAddress (index : Int32) : BitVec 64 := p.locate (scaled .byte 0 index)

theorem toNat_byteAddress (index : Int32) :
    ((p.byteAddress index).toNat : Int) = (p.address.bits.toNat + index.toInt) % 2 ^ M.bits := by
  rw [byteAddress, scaled_eq, toNat_locate_ofNumber, elementDistance]
  simp [Scalar.bytes]

/-- An int that is the number of a byte of the map leads to the byte. -/
theorem byteAddress_eq {index : Int32} {n : Nat} (number : index.toInt = (n / 8 : Nat)) :
    (p.byteAddress index).toNat = (p.mapBit n).1 := by
  have reached := p.toNat_byteAddress index
  rw [number] at reached
  rw [mapBit]
  exact_mod_cast reached

theorem byteAddress_wrapIndex {n : Nat} (near : n / 8 < 2 ^ 31) :
    (p.byteAddress (wrapIndex (n / 8))).toNat = (p.mapBit n).1 :=
  p.byteAddress_eq (toInt_wrapIndex near)

/-- The place of a bit of a mask, in the first byte or in the second. -/
theorem mapBit_add (n k : Nat) (small : k < 8) :
    p.mapBit (n + k) =
      if n % 8 + k < 8 then ((p.mapBit n).1, n % 8 + k)
      else ((p.mapBit (n + 8)).1, n % 8 + k - 8) := by
  split
  · have byte : (n + k) / 8 = n / 8 := by omega
    have number : (n + k) % 8 = n % 8 + k := by omega
    rw [mapBit, mapBit, byte, number]
  · have byte : (n + k) / 8 = (n + 8) / 8 := by omega
    have number : (n + k) % 8 = n % 8 + k - 8 := by omega
    rw [mapBit, mapBit, byte, number]

/-- The bits of a mask lie in the window of the first one. -/
theorem mapBit_mem_window {n k : Nat} (small : k < 8) : (p.mapBit (n + k)).1 ∈ p.window n := by
  rw [p.mapBit_add n k small]
  split
  · exact List.mem_cons_self
  · rw [window, if_pos (by omega)]
    exact List.mem_cons_of_mem _ List.mem_cons_self

/-- The bits of a mask are those that are shifted within the first byte and those that are
shifted out of it. -/
theorem maskBits_eq (n : Nat) (mask : BitVec 8) :
    p.maskBits n mask =
      {x | x.1 = (p.mapBit n).1 ∧ (mask <<< (n % 8)).getLsbD x.2 = true} ∪
        {x | x.1 = (p.mapBit (n + 8)).1 ∧ (mask >>> (8 - n % 8)).getLsbD x.2 = true} := by
  ext ⟨address, j⟩
  simp only [maskBits, Set.mem_union, Set.mem_ofPred_eq, BitVec.getLsbD_shiftLeft,
    BitVec.getLsbD_ushiftRight, Bool.and_eq_true, Bool.not_eq_true', decide_eq_true_eq,
    decide_eq_false_iff_not]
  constructor
  · rintro ⟨k, held, place⟩
    have small := BitVec.lt_of_getLsbD held
    rw [p.mapBit_add n k small] at place
    split at place
    · obtain ⟨rfl, rfl⟩ := Prod.mk.inj place
      refine .inl ⟨rfl, ⟨by omega, by omega⟩, ?_⟩
      rwa [Nat.add_sub_cancel_left]
    · obtain ⟨rfl, rfl⟩ := Prod.mk.inj place
      refine .inr ⟨rfl, ?_⟩
      rwa [show 8 - n % 8 + (n % 8 + k - 8) = k by omega]
  · rintro (⟨rfl, ⟨room, after⟩, held⟩ | ⟨rfl, held⟩)
    · refine ⟨j - n % 8, held, ?_⟩
      rw [p.mapBit_add n _ (by omega), if_pos (by omega), Nat.add_sub_cancel' (by omega)]
    · have small := BitVec.lt_of_getLsbD held
      refine ⟨8 - n % 8 + j, held, ?_⟩
      rw [p.mapBit_add n _ small, if_neg (by omega)]
      congr 1
      omega

/-! ## Bytes -/

/-- A byte is kept as it is, whatever the order. -/
theorem code_byte (order : ByteOrder) (x : Int8) : code M .byte order x = [x.toUInt8] := by
  change order.encode 1 x.toBitVec.toNat = _
  rw [ByteOrder.encode_one]
  exact congrArg (fun b => [b]) (UInt8.ofNat_toNat (x := x.toUInt8))

/-- Setting the bits of a mask in a byte that the region has. -/
theorem orByte_of_has {index : Int32} (mask : BitVec 8)
    (has : r.Has (p.byteAddress index).toNat) :
    ∃ next, p.orByte index mask r = .ok () next ∧
      r.WithBits {x | x.1 = (p.byteAddress index).toNat ∧ mask.getLsbD x.2 = true} next := by
  have inside : Inside r p .byte (scaled .byte 0 index) := (r.contains_byte_iff _).2 has
  let held := r.byte (distance r p (scaled .byte 0 index))
  have found : p.fetch r .byte (scaled .byte 0 index) = .ok held.toInt8 := by
    have bytes : r.bytesAt (distance r p (scaled .byte 0 index)) 1 = [held] := rfl
    rw [fetch_of_inside p _ inside, Scalar.bytes, bytes, ByteOrder.decode_singleton]
    exact congrArg (fun b : UInt8 => Except.ok b.toInt8) UInt8.ofNat_toNat
  obtain ⟨next, written, patched⟩ := p.write_of_inside (scaled .byte 0 index) inside
    (held.toInt8 ||| Int8.ofBitVec mask : Int8)
  rw [code_byte] at patched
  have here : r.base.toNat + distance r p (scaled .byte 0 index) = (p.byteAddress index).toNat :=
    Nat.add_sub_cancel' has.1
  rw [← here]
  exact ⟨next, (Access.bind_of_ok (p.read_of_fetch _ found)).trans written, patched.withBits rfl⟩

theorem orByte_of_not_has {index : Int32} (mask : BitVec 8)
    (lacks : ¬ r.Has (p.byteAddress index).toNat) :
    p.orByte index mask r = .error (.outside 1 (p.byteAddress index).toNat r.base.toNat
      (r.base.toNat + r.size)) r := by
  have outside : ¬ Inside r p .byte (scaled .byte 0 index) := mt (r.contains_byte_iff _).1 lacks
  have failed : p.read .byte (scaled .byte 0 index) r = .error (.outside 1
      (p.byteAddress index).toNat r.base.toNat (r.base.toNat + r.size)) r :=
    Access.query_of_error (p.fetch_of_not_inside _ outside)
  exact Access.bind_of_error failed

/-! ## Single bits -/

/-- Setting a bit of the map sets one bit in the byte that its index leads to, or fails if the
region does not have this byte. -/
theorem setMapBit_cases (n : Nat) (r : Region) :
    let address := (p.byteAddress (wrapIndex (n / 8))).toNat
    (r.Has address ∧ ∃ next, p.setMapBit n r = .ok () next ∧
      r.WithBits {(address, n % 8)} next) ∨
    (¬ r.Has address ∧ p.setMapBit n r =
      .error (.outside 1 address r.base.toNat (r.base.toNat + r.size)) r) := by
  intro address
  by_cases has : r.Has address
  · left
    obtain ⟨next, done, set⟩ := p.orByte_of_has (BitVec.twoPow 8 (n % 8)) has
    have single : {x : Nat × Nat | x.1 = address ∧
        (BitVec.twoPow 8 (n % 8)).getLsbD x.2 = true} = {(address, n % 8)} := by
      have number : n % 8 < 8 := Nat.mod_lt n (by decide)
      ext ⟨a, j⟩
      simp [BitVec.getLsbD_twoPow, number, eq_comm]
    exact ⟨has, next, done, single ▸ set⟩
  · exact .inr ⟨has, p.orByte_of_not_has _ has⟩

theorem setMapBit_of_has {n : Nat} (near : n / 8 < 2 ^ 31) (has : r.Has (p.mapBit n).1) :
    ∃ next, p.setMapBit n r = .ok () next ∧ r.WithBits {p.mapBit n} next := by
  have cases := p.setMapBit_cases n r
  rw [p.byteAddress_wrapIndex near] at cases
  rcases cases with ⟨-, done⟩ | ⟨lacks, -⟩
  · exact done
  · exact absurd has lacks

/-! ## Masks -/

section Masks

variable {n : Nat} (near : n / 8 + 1 < 2 ^ 31) (mask : BitVec 8)

include near

/-- The second byte of a mask has an int as its index. -/
theorem exactIndex_succ :
    exactIndex ((wrapIndex (n / 8)).toInt + 1) = .ok (wrapIndex (n / 8 + 1)) := by
  obtain ⟨second, exact_eq, number⟩ :=
    toInt_exactIndex (n := (wrapIndex (n / 8)).toInt + 1)
      (by rw [toInt_wrapIndex (by omega)]; omega) (by rw [toInt_wrapIndex (by omega)]; omega)
  rw [exact_eq]
  apply congrArg
  apply Int32.toInt_inj.1
  rw [number, toInt_wrapIndex (by omega), toInt_wrapIndex (by omega), Nat.cast_succ]

/-- The bits of a mask are or-ed into one byte or two. -/
theorem orMapBits_eq {μ : Type} [Memory μ] :
    (p.orMapBits n mask : Access μ Unit) =
      p.orByte (wrapIndex (n / 8)) (mask <<< (n % 8)) >>= fun _ =>
        if 0 < n % 8 then p.orByte (wrapIndex (n / 8 + 1)) (mask >>> (8 - n % 8)) else pure () := by
  rw [orMapBits, exactIndex_succ near]

theorem byteAddress_second :
    (p.byteAddress (wrapIndex (n / 8 + 1))).toNat = (p.mapBit (n + 8)).1 := by
  apply p.byteAddress_eq
  rw [toInt_wrapIndex (by omega), Nat.add_div_right n (by decide)]

/-- If the region has the window of the first bit, all bits of the mask are set, each at its
place. -/
theorem orMapBits_of_window (has : ∀ address ∈ p.window n, r.Has address) :
    ∃ next, p.orMapBits n mask r = .ok () next ∧ r.WithBits (p.maskBits n mask) next := by
  rw [window, List.forall_mem_cons, ← p.byteAddress_wrapIndex (by omega)] at has
  obtain ⟨has_first, has_second⟩ := has
  obtain ⟨between, done, first⟩ := p.orByte_of_has (mask <<< (n % 8)) has_first
  rw [p.byteAddress_wrapIndex (by omega)] at first
  rw [p.orMapBits_eq near, Access.bind_of_ok done, maskBits_eq]
  by_cases split : 0 < n % 8
  · rw [if_pos split, List.forall_mem_singleton, ← p.byteAddress_second near,
      ← first.has_iff] at has_second
    obtain ⟨next, done', second⟩ := p.orByte_of_has (mask >>> (8 - n % 8)) has_second
    rw [p.byteAddress_second near] at second
    rw [if_pos split]
    exact ⟨next, done', first.trans second⟩
  · have none_out : {x : Nat × Nat | x.1 = (p.mapBit (n + 8)).1 ∧
        (mask >>> (8 - n % 8)).getLsbD x.2 = true} = ∅ := by
      ext x
      simp [show n % 8 = 0 by omega]
    rw [if_neg split, none_out, Set.union_empty]
    exact ⟨between, rfl, first⟩

/-- Without the window the mask is refused. -/
theorem orMapBits_of_not_window {address : Nat} (member : address ∈ p.window n)
    (lacks : ¬ r.Has address) : ∃ fault last, p.orMapBits n mask r = .error fault last := by
  rw [p.orMapBits_eq near]
  by_cases has_first : r.Has (p.byteAddress (wrapIndex (n / 8))).toNat
  · obtain ⟨between, done, first⟩ := p.orByte_of_has (mask <<< (n % 8)) has_first
    rw [p.byteAddress_wrapIndex (by omega)] at has_first
    rw [window, List.mem_cons] at member
    rcases member with rfl | member
    · exact absurd has_first lacks
    · split at member
      · rename_i split
        obtain rfl := List.mem_singleton.1 member
        rw [← p.byteAddress_second near, ← first.has_iff] at lacks
        rw [Access.bind_of_ok done, if_pos split]
        exact ⟨_, _, p.orByte_of_not_has _ lacks⟩
      · cases member
  · exact ⟨_, _, Access.bind_of_error (p.orByte_of_not_has _ has_first)⟩

end Masks

end Pointer

end MachineWord
