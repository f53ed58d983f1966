import Mathlib
import MachineWord.ByteOrder.Lemmas
import MachineWord.Memory.Access
import MachineWord.Memory.Region.Patch
import MachineWord.Pointer.Basic
import MachineWord.Scalar.Lemmas

/-!
# Laws of typed memory

A typed access of a region reaches as many bytes as its kind has, from the address that its
offset locates. It fails if the region does not contain them. Otherwise a fetch decodes them
and a write patches them with the code of its value. `write_laws` collects what follows: a
written value is read back, nothing else is affected, and writes that lie apart commute.

A value that has just been read can be written back without a change, except for booleans:
each byte other than zero is read as true, and true is written as one.
-/

set_option autoImplicit false

namespace MachineWord

namespace Region

/-- A region at the same place and in the same order, with the same bytes except for those at
an address. -/
structure AgreesBeyond (r : Region) (address count : Nat) (next : Region) : Prop where
  base_eq : next.base = r.base
  size_eq : next.size = r.size
  order_eq : next.order = r.order
  byte_eq (i : Nat)
    (beyond : r.base.toNat + i < address ∨ address + count ≤ r.base.toNat + i) :
    next.byte i = r.byte i

theorem AgreesBeyond.refl (r : Region) (address count : Nat) : AgreesBeyond r address count r :=
  ⟨rfl, rfl, rfl, fun _ _ => rfl⟩

end Region

namespace Pointer

variable {M N : Model} {s t : Scalar} {r next : Region}

/-- The bytes of two typed accesses do not overlap. -/
def Apart (p : Pointer M) (s : Scalar) (offset : Offset M) (q : Pointer N) (t : Scalar)
    (other : Offset N) : Prop :=
  (p.locate offset).toNat + s.bytes M ≤ (q.locate other).toNat ∨
    (q.locate other).toNat + t.bytes N ≤ (p.locate offset).toNat

/-- The region contains the bytes of a typed access. -/
def Inside (r : Region) (p : Pointer M) (s : Scalar) (offset : Offset M) : Prop :=
  r.contains (p.locate offset) (s.bytes M) = true

instance (r : Region) (p : Pointer M) (s : Scalar) (offset : Offset M) :
    Decidable (Inside r p s offset) :=
  inferInstanceAs (Decidable (_ = true))

/-- The distance of the bytes of a typed access from the base of a region. -/
def distance (r : Region) (p : Pointer M) (offset : Offset M) : Nat :=
  (p.locate offset).toNat - r.base.toNat

/-- The bytes that a value of a kind is kept in. -/
def code (M : Model) (s : Scalar) (order : ByteOrder) (x : s.Carrier M) : List UInt8 :=
  order.encode (s.bytes M) (s.encode M x)

@[simp] theorem length_code (order : ByteOrder) (x : s.Carrier M) :
    (code M s order x).length = s.bytes M :=
  ByteOrder.length_encode _ _ _

/-- Reading the bytes of a value gives the value. -/
theorem decode_code (order : ByteOrder) (x : s.Carrier M) :
    s.decode M (order.decode (code M s order x)) = x := by
  rw [code, ByteOrder.decode_encode, Nat.mod_eq_of_lt (s.encode_lt M x), s.decode_encode]

/-- Bytes are those of the value read from them, unless it is a boolean. -/
theorem code_decode (order : ByteOrder) (number : s ≠ .boolean) {bytes : List UInt8}
    (length : bytes.length = s.bytes M) :
    code M s order (s.decode M (order.decode bytes)) = bytes := by
  have fits := ByteOrder.decode_lt order bytes
  rw [length] at fits
  rw [code, s.encode_decode M number fits, ← length, ByteOrder.encode_decode]

/-- A boolean is true for every byte other than zero, and true is kept as one. -/
theorem code_decode_boolean (order : ByteOrder) (b : UInt8) :
    code M .boolean order (Scalar.decode M .boolean (order.decode [b])) =
      [if b = 0 then 0 else 1] := by
  have value : order.decode [b] = b.toNat := by
    cases order with
    | little => exact Nat.add_zero _
    | big => exact Nat.shiftLeft_zero
  have kept (x : Bool) : order.encode 1 x.toNat = [if x then 1 else 0] := by
    cases order <;> cases x <;> rfl
  have truth : (b.toNat != 0) = true ↔ b ≠ 0 := by
    rw [bne_iff_ne]
    exact not_congr (@UInt8.toNat_inj b 0)
  change order.encode 1 (Bool.toNat (order.decode [b] != 0)) = _
  rw [value, kept]
  by_cases zero : b = 0
  · rw [if_neg fun found => truth.1 found zero, if_pos zero]
  · rw [if_pos (truth.2 zero), if_neg zero]

/-! ## Single accesses -/

variable (p : Pointer M) (offset : Offset M) (q : Pointer N) (other : Offset N)

theorem fetch_of_inside (inside : Inside r p s offset) :
    p.fetch r s offset =
      .ok (s.decode M (r.order.decode (r.bytesAt (distance r p offset) (s.bytes M)))) := by
  change ((r.load (p.locate offset) (s.bytes M) >>= _) >>= _) = _
  rw [Region.load_of_contains inside]
  rfl

theorem fetch_of_not_inside (outside : ¬ Inside r p s offset) :
    p.fetch r s offset = .error (.outside (s.bytes M) (p.locate offset).toNat r.base.toNat
      (r.base.toNat + r.size)) := by
  change ((r.load (p.locate offset) (s.bytes M) >>= _) >>= _) = _
  rw [Region.load_of_not_contains outside]
  rfl

theorem read_of_fetch {x : s.Carrier M} (fetched : p.fetch r s offset = .ok x) :
    p.read s offset r = .ok x r := by
  rw [read, Access.query, fetched]

theorem write_of_inside (inside : Inside r p s offset) (x : s.Carrier M) :
    ∃ next, p.write s offset x r = .ok () next ∧
      r.Patched (distance r p offset) (code M s r.order x) next := by
  have span : r.contains (p.locate offset) (code M s r.order x).length = true := by
    rwa [length_code]
  obtain ⟨next, stored, patched⟩ := Region.store_of_contains span
  exact ⟨next, Access.update_of_ok stored, patched⟩

theorem write_of_not_inside (outside : ¬ Inside r p s offset) (x : s.Carrier M) :
    p.write s offset x r = .error (.outside (s.bytes M) (p.locate offset).toNat r.base.toNat
      (r.base.toNat + r.size)) r := by
  have span : ¬ r.contains (p.locate offset) (code M s r.order x).length = true := by
    rwa [length_code]
  have failed := Region.store_of_not_contains span
  rw [length_code] at failed
  exact Access.update_of_error failed

/-! ## Writes -/

theorem after_write_of_not_inside (outside : ¬ Inside r p s offset) (x : s.Carrier M) :
    (p.write s offset x).after r = r := by
  rw [Access.after, p.write_of_not_inside offset outside x]

theorem patched_write (inside : Inside r p s offset) (x : s.Carrier M) :
    r.Patched (distance r p offset) (code M s r.order x) ((p.write s offset x).after r) := by
  obtain ⟨next, written, patched⟩ := p.write_of_inside offset inside x
  rw [Access.after, written]
  exact patched

/-- What a write does. It fails exactly if the region does not contain its bytes. -/
theorem write_cases (r : Region) (x : s.Carrier M) :
    (Inside r p s offset ∧ (p.write s offset x).answer r = .ok () ∧
      r.Patched (distance r p offset) (code M s r.order x) ((p.write s offset x).after r)) ∨
    (¬ Inside r p s offset ∧
      (p.write s offset x).answer r = .error (.outside (s.bytes M) (p.locate offset).toNat
        r.base.toNat (r.base.toNat + r.size)) ∧
      (p.write s offset x).after r = r) := by
  by_cases inside : Inside r p s offset
  · left
    refine ⟨inside, ?_, p.patched_write offset inside x⟩
    obtain ⟨next, written, -⟩ := p.write_of_inside offset inside x
    rw [Access.answer, written]
  · right
    refine ⟨inside, ?_, p.after_write_of_not_inside offset inside x⟩
    rw [Access.answer, p.write_of_not_inside offset inside x]

/-- A write affects the bytes that it reaches and no others. -/
theorem agreesBeyond_write (r : Region) (x : s.Carrier M) :
    r.AgreesBeyond (p.locate offset).toNat (s.bytes M) ((p.write s offset x).after r) := by
  rcases p.write_cases offset r x with ⟨inside, -, patched⟩ | ⟨-, -, unchanged⟩
  · have range := (r.contains_iff _ _).1 inside
    refine ⟨patched.base_eq, patched.size_eq, patched.order_eq, ?_⟩
    intro i beyond
    rw [patched.byte_eq, length_code, distance, if_neg (by omega)]
  · rw [unchanged]
    exact .refl r _ _

theorem inside_congr (base_eq : next.base = r.base) (size_eq : next.size = r.size) :
    Inside next q t other ↔ Inside r q t other := by
  rw [Inside, Inside, Region.contains_iff, Region.contains_iff, base_eq, size_eq]

theorem distance_congr (base_eq : next.base = r.base) :
    distance next q other = distance r q other := by
  rw [distance, distance, base_eq]

/-- Distances of bytes in a region that do not overlap. -/
theorem Apart.distances {p : Pointer M} {offset : Offset M} {q : Pointer N} {other : Offset N}
    (apart : p.Apart s offset q t other) (inside : Inside r p s offset)
    (inside' : Inside r q t other) :
    distance r q other + t.bytes N ≤ distance r p offset ∨
      distance r p offset + s.bytes M ≤ distance r q other := by
  have range := (r.contains_iff _ _).1 inside
  have range' := (r.contains_iff _ _).1 inside'
  unfold Apart at apart
  unfold distance
  omega

/-- What has been written is read. -/
theorem fetch_write_self {x : s.Carrier M} (written : (p.write s offset x).answer r = .ok ()) :
    p.fetch ((p.write s offset x).after r) s offset = .ok x := by
  rcases p.write_cases offset r x with ⟨inside, -, patched⟩ | ⟨-, failed, -⟩
  · have bytes := patched.bytesAt_self
    rw [length_code] at bytes
    rw [fetch_of_inside p offset
      ((p.inside_congr offset patched.base_eq patched.size_eq).2 inside),
      distance_congr p offset patched.base_eq, bytes, patched.order_eq, decode_code]
  · rw [failed] at written
    cases written

/-- What lies apart from a write is read as before. -/
theorem fetch_write_apart {p : Pointer M} {offset : Offset M} {q : Pointer N} {other : Offset N}
    (apart : p.Apart s offset q t other) (r : Region) (x : s.Carrier M) :
    q.fetch ((p.write s offset x).after r) t other = q.fetch r t other := by
  rcases p.write_cases offset r x with ⟨inside, -, patched⟩ | ⟨-, -, unchanged⟩
  · have same := inside_congr q other (t := t) patched.base_eq patched.size_eq
    by_cases inside' : Inside r q t other
    · have bytes : ((p.write s offset x).after r).bytesAt (distance r q other) (t.bytes N) =
          r.bytesAt (distance r q other) (t.bytes N) :=
        patched.bytesAt_apart (by rw [length_code]; exact apart.distances inside inside')
      rw [fetch_of_inside q other (same.2 inside'), fetch_of_inside q other inside',
        distance_congr q other patched.base_eq, bytes, patched.order_eq]
    · rw [fetch_of_not_inside q other (mt same.1 inside'), fetch_of_not_inside q other inside',
        patched.base_eq, patched.size_eq]
  · rw [unchanged]

theorem inside_write (r : Region) (x : s.Carrier M) :
    Inside ((p.write s offset x).after r) q t other ↔ Inside r q t other :=
  have agrees := p.agreesBeyond_write offset r x
  inside_congr q other agrees.base_eq agrees.size_eq

/-- A write has the same answer after a write. -/
theorem answer_write_write (r : Region) (x : s.Carrier M) (y : t.Carrier N) :
    (q.write t other y).answer ((p.write s offset x).after r) = (q.write t other y).answer r := by
  have agrees := p.agreesBeyond_write offset r x
  have same := inside_write p offset q other (t := t) r x
  rcases q.write_cases other r y with ⟨inside, done, -⟩ | ⟨outside, failed, -⟩ <;>
    rcases q.write_cases other ((p.write s offset x).after r) y with
      ⟨inside', done', -⟩ | ⟨outside', failed', -⟩
  · rw [done, done']
  · exact absurd (same.2 inside) outside'
  · exact absurd (same.1 inside') outside
  · rw [failed, failed', agrees.base_eq, agrees.size_eq]

/-- Writes that lie apart leave the same region in either order. -/
theorem write_comm {p : Pointer M} {offset : Offset M} {q : Pointer N} {other : Offset N}
    (apart : p.Apart s offset q t other) (r : Region) (x : s.Carrier M) (y : t.Carrier N) :
    (q.write t other y).after ((p.write s offset x).after r) =
      (p.write s offset x).after ((q.write t other y).after r) := by
  have inside_first := inside_write p offset q other (t := t) r x
  have inside_second := inside_write q other p offset (t := s) r y
  by_cases inside : Inside r p s offset
  · by_cases inside' : Inside r q t other
    · have first := p.patched_write offset inside x
      have second := q.patched_write other (inside_first.2 inside') y
      have first' := q.patched_write other inside' y
      have second' := p.patched_write offset (inside_second.2 inside) x
      rw [distance_congr q other first.base_eq, first.order_eq] at second
      rw [distance_congr p offset first'.base_eq, first'.order_eq] at second'
      refine first.comm second first' second' ?_
      rw [length_code, length_code]
      exact apart.distances inside inside'
    · rw [after_write_of_not_inside q other inside',
        after_write_of_not_inside q other (mt inside_first.1 inside')]
  · rw [after_write_of_not_inside p offset inside,
      after_write_of_not_inside p offset (mt inside_second.1 inside)]

/-- Writing back what has just been read changes nothing but the byte of a boolean. -/
theorem write_fetch {x : s.Carrier M} (held : p.fetch r s offset = .ok x) :
    (p.write s offset x).answer r = .ok () ∧
      (s ≠ .boolean → (p.write s offset x).after r = r) ∧
      (s = .boolean → ∀ i, ((p.write s offset x).after r).byte i =
        if r.base.toNat + i = (p.locate offset).toNat ∧ r.byte i ≠ 0 then 1 else r.byte i) := by
  rcases p.write_cases offset r x with ⟨inside, done, patched⟩ | ⟨outside, -, -⟩
  · rw [fetch_of_inside p offset inside] at held
    cases held
    refine ⟨done, ?_, ?_⟩
    · intro number
      rw [code_decode r.order number (r.length_bytesAt _ _)] at patched
      exact patched.eq_of_bytesAt
    · rintro rfl i
      have range := (r.contains_iff _ _).1 inside
      have bytes : code M .boolean r.order (Scalar.decode M .boolean (r.order.decode
          (r.bytesAt (distance r p offset) (Scalar.bytes M .boolean)))) =
          [if r.byte (distance r p offset) = 0 then 0 else 1] := code_decode_boolean _ _
      rw [patched.byte_eq, bytes, List.length_singleton]
      by_cases here : r.base.toNat + i = (p.locate offset).toNat
      · obtain rfl : i = distance r p offset := by
          unfold distance
          omega
        rw [if_pos (by omega), Nat.sub_self]
        by_cases zero : r.byte (distance r p offset) = 0
        · rw [if_pos zero, if_neg fun both => both.2 zero, zero]
          rfl
        · rw [if_neg zero, if_pos ⟨here, zero⟩]
          rfl
      · rw [if_neg (by unfold distance; omega), if_neg fun both => here both.1]
  · rw [fetch_of_not_inside p offset outside] at held
    cases held

/-- **Laws of typed memory.** For every kind of value, a write that does not fail is read
back; a write that fails changes nothing. Only the bytes of the kind at the address that the
offset locates may change. Accesses that lie apart from the write answer as before, and writes
among them leave the same region in either order. Writing back a value that has been read
changes no byte, except that a byte which is a boolean other than zero becomes one. -/
theorem write_laws (r : Region) (p : Pointer M) (s : Scalar) (offset : Offset M)
    (x : s.Carrier M) :
    ((p.write s offset x).answer r = .ok () →
      (p.read s offset).answer ((p.write s offset x).after r) = .ok x) ∧
    (∀ fault, (p.write s offset x).answer r = .error fault →
      (p.write s offset x).after r = r) ∧
    r.AgreesBeyond (p.locate offset).toNat (s.bytes M) ((p.write s offset x).after r) ∧
    (∀ (q : Pointer M) (t : Scalar) (other : Offset M), p.Apart s offset q t other →
      (q.read t other).answer ((p.write s offset x).after r) = (q.read t other).answer r ∧
      ∀ y : t.Carrier M,
        (q.write t other y).answer ((p.write s offset x).after r) =
          (q.write t other y).answer r ∧
        (q.write t other y).after ((p.write s offset x).after r) =
          (p.write s offset x).after ((q.write t other y).after r)) ∧
    ((p.read s offset).answer r = .ok x →
      (p.write s offset x).answer r = .ok () ∧
      (s ≠ .boolean → (p.write s offset x).after r = r) ∧
      (s = .boolean → ∀ i, ((p.write s offset x).after r).byte i =
        if r.base.toNat + i = (p.locate offset).toNat ∧ r.byte i ≠ 0 then 1 else r.byte i)) := by
  refine ⟨?_, ?_, p.agreesBeyond_write offset r x, ?_, ?_⟩
  · intro written
    rw [read, Access.answer_query]
    exact p.fetch_write_self offset written
  · intro fault failed
    rcases p.write_cases offset r x with ⟨-, done, -⟩ | ⟨-, -, unchanged⟩
    · rw [done] at failed
      cases failed
    · exact unchanged
  · intro q t other apart
    refine ⟨?_, fun y => ⟨p.answer_write_write offset q other r x y, write_comm apart r x y⟩⟩
    rw [read, Access.answer_query, Access.answer_query]
    exact fetch_write_apart apart r x
  · intro held
    rw [read, Access.answer_query] at held
    exact p.write_fetch offset held

/-- A floating point number that is none, kept across two cells. -/
theorem write_laws_of_signaling_nan : ∃ r, Region.zeros 0x1000 16 .big = .ok r ∧
    (read (⟨.ofBits 0x1003⟩ : Pointer .target32) .double (.ofInt 2)).answer
        ((write (⟨.ofBits 0x1003⟩ : Pointer .target32) .double (.ofInt 2)
          (0x7ff0000000000001 : BitVec 64)).after r) =
      .ok (0x7ff0000000000001 : BitVec 64) := by
  refine ⟨_, rfl, (write_laws _ _ .double _ (0x7ff0000000000001 : BitVec 64)).1 ?_⟩
  rcases write_cases (s := .double) (⟨.ofBits 0x1003⟩ : Pointer .target32) (.ofInt 2) _
    (0x7ff0000000000001 : BitVec 64) with ⟨-, done, -⟩ | ⟨outside, -, -⟩
  · exact done
  · exact absurd (by decide) outside

end Pointer

end MachineWord
