import Mathlib
import MachineWord.ByteOrder.Slices
import MachineWord.Proofs.Memory.Typed

/-!
# Kinds alias by slices

A number is stored in the same bytes whatever it is the code of, so a store at one kind is seen
by a load at another. Loads and stores are taken here as accesses of a number of some bytes,
made directly or through a pointer as a value of some kind (`Region.Loads`, `Region.Stores`);
for given bytes there is only one load and only one store, up to what they answer
(`Loads.answer_eq`, `Stores.access_eq`).

The bytes of a wide number are divided into parts for a narrower one. A store of the wide number
leaves in each part the bytes of a slice, and stores of all slices leave, in whatever order they
are made, the bytes of the wide number. `kinds_alias_by_slices` puts this together.
-/

set_option autoImplicit false

namespace MachineWord

namespace Region

/-- The access stores a number of `count` bytes at an address: as it is, or as the code of a value
that is written through a pointer. -/
inductive Stores (M : Model) (count : Nat) (address : BitVec 64) (n : Nat) :
    Access Region Unit → Prop where
  | number : Stores M count address n (.update fun r => Memory.storeNat r count address n)
  | value (p : Pointer M) (s : Scalar) (offset : Offset M) (x : s.Carrier M)
      (bytes_eq : s.bytes M = count) (address_eq : p.locate offset = address)
      (code_eq : s.encode M x = n) : Stores M count address n (p.write s offset x)

/-- The access answers the number of `count` bytes at an address: as it is, or as the code of a
value that is read through a pointer. The code of a boolean is not the number of its byte. -/
inductive Loads (M : Model) (count : Nat) (address : BitVec 64) : Access Region Nat → Prop where
  | number : Loads M count address (.query fun r => Memory.loadNat r count address)
  | value (p : Pointer M) (s : Scalar) (offset : Offset M) (number : s ≠ .boolean)
      (bytes_eq : s.bytes M = count) (address_eq : p.locate offset = address) :
      Loads M count address (s.encode M <$> p.read s offset)

variable {M : Model} {r next : Region} {count : Nat} {address : BitVec 64} {n : Nat}

/-! ## Numbers of some bytes -/

/-- A number that is loaded fits into its bytes. -/
theorem lt_of_loadNat (loaded : Memory.loadNat r count address = .ok n) : n < 256 ^ count := by
  by_cases inside : r.contains address count = true
  · rw [loadNat_of_contains inside] at loaded
    cases loaded
    have bound := r.order.decode_lt (r.bytesAt (address.toNat - r.base.toNat) count)
    rwa [length_bytesAt] at bound
  · rw [loadNat_of_not_contains inside] at loaded
    cases loaded

theorem Stores.access_eq {access : Access Region Unit}
    (stores : Stores M count address n access) :
    access = .update fun r => Memory.storeNat r count address n := by
  cases stores with
  | number => rfl
  | value p s offset x bytes_eq address_eq code_eq =>
      subst bytes_eq address_eq code_eq
      rfl

theorem Stores.patched {access : Access Region Unit} (stores : Stores M count address n access)
    (inside : r.contains address count = true) :
    ∃ next, access r = .ok () next ∧
      Patched r (address.toNat - r.base.toNat) (r.order.encode count n) next := by
  obtain ⟨next, stored, patched⟩ := storeNat_of_contains inside n
  rw [stores.access_eq]
  exact ⟨next, Access.update_of_ok stored, patched⟩

theorem Loads.answer_eq {access : Access Region Nat} (loads : Loads M count address access)
    (r : Region) : access.answer r = Memory.loadNat r count address := by
  cases loads with
  | number => rw [Access.answer_query]
  | value p s offset number bytes_eq address_eq =>
      subst bytes_eq address_eq
      rw [Access.answer_map, Pointer.read, Access.answer_query, Pointer.fetch]
      cases loaded : Memory.loadNat r (s.bytes M) (p.locate offset) with
      | ok n => exact congrArg Except.ok (s.encode_decode M number (lt_of_loadNat loaded))
      | error fault => rfl

/-! ## Parts of the bytes of a number -/

/-- The address of part `j` of the bytes at an address, each part being `count` bytes long. -/
def place (address : BitVec 64) (count j : Nat) : BitVec 64 :=
  address + BitVec.ofNat 64 (count * j)

section Parts

variable {total j : Nat} (inside : r.contains address total = true)
  (fits : count * j + count ≤ total)

include inside fits

theorem toNat_place : (place address count j).toNat = address.toNat + count * j := by
  have range := (r.contains_iff _ _).1 inside
  have bound : r.base.toNat + r.size < 2 ^ 64 := r.end_lt
  rw [place, BitVec.toNat_add, BitVec.toNat_ofNat, Nat.add_mod_mod]
  exact Nat.mod_eq_of_lt (by omega)

theorem contains_place : r.contains (place address count j) count = true := by
  have range := (r.contains_iff _ _).1 inside
  rw [contains_iff, toNat_place inside fits]
  omega

theorem distance_place : (place address count j).toNat - r.base.toNat =
    address.toNat - r.base.toNat + count * j := by
  have range := (r.contains_iff _ _).1 inside
  rw [toNat_place inside fits]
  omega

/-- A part of the bytes of a number holds a slice of the number. -/
theorem loadNat_place {v : Nat} (small : v < 256 ^ total)
    (held : r.bytesAt (address.toNat - r.base.toNat) total = r.order.encode total v) :
    Memory.loadNat r count (place address count j) = .ok (r.order.part total count j v) := by
  have run : count * j + count ≤ (r.order.encode total v).length := by
    rwa [ByteOrder.length_encode]
  rw [loadNat_of_contains (contains_place inside fits), distance_place inside fits,
    ← r.take_drop_bytesAt fits, held, r.order.decode_take_drop run, ByteOrder.decode_encode,
    ByteOrder.length_encode, Nat.mod_eq_of_lt small, ByteOrder.part_eq]

end Parts

/-- The bytes of the region in some of the parts are those of a number. -/
def HoldsParts (r : Region) (address : BitVec 64) (total count v : Nat) (done : List Nat) : Prop :=
  ∀ i, i < total → i / count ∈ done →
    r.byte (address.toNat - r.base.toNat + i) = (r.order.encode total v).getD i 0

section Slices

variable {total v : Nat} (pos : 0 < count)

theorem loadNat_of_holdsParts {done : List Nat} (inside : r.contains address total = true)
    (small : v < 256 ^ total) (all : ∀ i, i < total → i / count ∈ done)
    (held : HoldsParts r address total count v done) :
    Memory.loadNat r total address = .ok v := by
  have bytes : r.bytesAt (address.toNat - r.base.toNat) total = r.order.encode total v := by
    apply List.ext_getElem
    · rw [length_bytesAt, ByteOrder.length_encode]
    · intro i inRun inCode
      rw [length_bytesAt] at inRun
      have byte := held i inRun (all i inRun)
      rw [List.getD_eq_getElem _ _ inCode] at byte
      simpa [bytesAt] using byte
  rw [loadNat_of_contains inside, bytes, ByteOrder.decode_encode, Nat.mod_eq_of_lt small]

include pos

/-- A store of a slice adds a part, and keeps all parts that are there. -/
theorem HoldsParts.store {done : List Nat} {j : Nat} (inside : r.contains address total = true)
    (fits : count * j + count ≤ total) (small : v < 256 ^ total)
    (held : HoldsParts r address total count v done)
    (patched : Patched r ((place address count j).toNat - r.base.toNat)
      (r.order.encode count (r.order.part total count j v)) next) :
    HoldsParts next address total count v (j :: done) := by
  intro i inRun listed
  -- A byte belongs to the part of its quotient, so it is a new one exactly if that part is `j`.
  have here : i / count = j ↔ count * j ≤ i ∧ i < count * j + count := by
    rw [Nat.div_eq_iff pos, Nat.mul_comm j count]
    omega
  rw [distance_place inside fits, r.order.encode_part fits small] at patched
  have length : (((r.order.encode total v).drop (count * j)).take count).length = count := by
    rw [List.length_take, List.length_drop, ByteOrder.length_encode]
    omega
  rw [patched.base_eq, patched.order_eq, patched.byte_eq, length]
  by_cases same : i / count = j
  · have range := here.1 same
    rw [if_pos (by omega), List.getD_eq_getElem?_getD, List.getElem?_take, if_pos (by omega),
      List.getElem?_drop, List.getD_eq_getElem?_getD]
    congr 2
    omega
  · have apart := mt here.2 same
    rw [if_neg (by omega)]
    exact held i inRun ((List.mem_cons.1 listed).resolve_left same)

/-- Stores of some slices, one after another, put each slice into its part. -/
theorem holdsParts_of_stores {done places : List Nat} {stores : List (Access Region Unit)}
    (inside : r.contains address total = true) (small : v < 256 ^ total)
    (fits : ∀ j ∈ places, count * j + count ≤ total)
    (made : List.Forall₂ (fun j => Stores M count (place address count j)
      (r.order.part total count j v)) places stores)
    (held : HoldsParts r address total count v done) :
    ∃ last, stores.forM id r = .ok () last ∧ last.contains address total = true ∧
      ∀ listed : List Nat, (∀ j ∈ listed, j ∈ places ∨ j ∈ done) →
        HoldsParts last address total count v listed := by
  induction places generalizing r done stores with
  | nil =>
      cases made
      refine ⟨r, rfl, inside, ?_⟩
      intro listed members i inRun member
      exact held i inRun ((members _ member).resolve_left List.not_mem_nil)
  | cons j places ih =>
      obtain ⟨store, later, first, rest, rfl⟩ := List.forall₂_cons_left_iff.1 made
      obtain ⟨fits_first, fits_rest⟩ := List.forall_mem_cons.1 fits
      obtain ⟨next, stored, patched⟩ := first.patched (contains_place inside fits_first)
      have inside' : next.contains address total = true := by
        rw [contains_iff, patched.base_eq, patched.size_eq, ← contains_iff]
        exact inside
      rw [← patched.order_eq] at rest
      obtain ⟨last, others, inside_last, parts⟩ :=
        ih inside' fits_rest rest (held.store pos inside fits_first small patched)
      refine ⟨last, (Access.bind_of_ok stored).trans others, inside_last, ?_⟩
      intro listed members
      apply parts listed
      intro k member
      rcases members k member with inPlaces | inDone
      · rcases List.mem_cons.1 inPlaces with rfl | later
        · exact .inr List.mem_cons_self
        · exact .inl later
      · exact .inr (List.mem_cons_of_mem j inDone)

end Slices

/-- Two kinds of the same size find the same number, unless one of them is that of booleans. -/
theorem answer_read_eq {s t : Scalar} (number : s ≠ .boolean) (number' : t ≠ .boolean)
    (bytes_eq : s.bytes M = t.bytes M) (r : Region) (p : Pointer M) (offset : Offset M) :
    ((p.read s offset).answer r).map (s.encode M) =
      ((p.read t offset).answer r).map (t.encode M) := by
  have first : Loads M (t.bytes M) (p.locate offset) (s.encode M <$> p.read s offset) :=
    .value p s offset number bytes_eq rfl
  have second : Loads M (t.bytes M) (p.locate offset) (t.encode M <$> p.read t offset) :=
    .value p t offset number' rfl rfl
  rw [← Access.answer_map, ← Access.answer_map, first.answer_eq, second.answer_eq]

/-- **Kinds alias by slices.** Let the bytes at an address be divided into parts for a narrower
width. A wide number stored there, as it is or at any kind of its size, is read in part `j` as its
slice `j`, counted from the least significant byte in a little region and from the most
significant one in a big region. Stores of all slices at their places, in any order, make the wide
number. A word and an int of a machine of 32 bits always hold the same bits, and so do a word
and a long of a machine of 64 bits. -/
theorem kinds_alias_by_slices (M : Model) (r : Region) :
    (∀ narrow wide : Width, narrow.bytes < wide.bytes →
      ∀ address : BitVec 64, r.contains address wide.bytes = true →
      ∀ v : Nat, v < 2 ^ wide.bits →
      let parts := wide.bytes / narrow.bytes
      let slice (j : Nat) : Nat := r.order.part wide.bytes narrow.bytes j v
      (∀ store, Stores M wide.bytes address v store →
        store.answer r = .ok () ∧
        ∀ j, j < parts → ∀ load, Loads M narrow.bytes (place address narrow.bytes j) load →
          load.answer (store.after r) = .ok (slice j)) ∧
      (∀ places stores, (∀ j, j ∈ places ↔ j < parts) →
        List.Forall₂ (fun j => Stores M narrow.bytes (place address narrow.bytes j) (slice j))
          places stores →
        (stores.forM id).answer r = .ok () ∧
        ∀ load, Loads M wide.bytes address load →
          load.answer ((stores.forM id).after r) = .ok v)) ∧
    (∀ (p : Pointer M) (offset : Offset M),
      let word := ((p.read .word offset).answer r).map fun x : Word M => x.bits.toNat
      (M.size = .w32 → word = ((p.read .int offset).answer r).map
        fun n : Int32 => n.toBitVec.toNat) ∧
      (M.size = .w64 → word = ((p.read .long offset).answer r).map
        fun n : Int64 => n.toBitVec.toNat)) := by
  refine ⟨?_, ?_⟩
  · intro narrow wide smaller address inside v small parts slice
    have pos : 0 < narrow.bytes := by cases narrow <;> decide
    have whole : narrow.bytes * parts = wide.bytes := by
      cases narrow <;> cases wide <;> first | rfl | exact absurd smaller (by decide)
    have fits {j : Nat} (early : j < parts) : narrow.bytes * j + narrow.bytes ≤ wide.bytes := by
      rw [← Nat.mul_succ, ← whole]
      exact Nat.mul_le_mul_left _ early
    have bytes : 2 ^ wide.bits = 256 ^ wide.bytes := by cases wide <;> rfl
    rw [bytes] at small
    refine ⟨?_, ?_⟩
    · intro store stores
      obtain ⟨next, stored, patched⟩ := stores.patched inside
      refine ⟨Access.answer_of_ok stored, ?_⟩
      intro j early load loads
      have inside' : next.contains address wide.bytes = true := by
        rw [contains_iff, patched.base_eq, patched.size_eq, ← contains_iff]
        exact inside
      have held := patched.bytesAt_self
      rw [ByteOrder.length_encode, ← patched.base_eq, ← patched.order_eq] at held
      rw [Access.after_of_ok stored, loads.answer_eq,
        loadNat_place inside' (fits early) small held, patched.order_eq]
    · intro places stores members made
      have reached (j : Nat) (listed : j ∈ places) : narrow.bytes * j + narrow.bytes ≤ wide.bytes :=
        fits ((members j).1 listed)
      have before : HoldsParts r address wide.bytes narrow.bytes v [] :=
        fun _ _ listed => absurd listed List.not_mem_nil
      obtain ⟨last, stored, inside', held⟩ :=
        holdsParts_of_stores pos inside small reached made before
      refine ⟨Access.answer_of_ok stored, ?_⟩
      intro load loads
      have all (i : Nat) (inRun : i < wide.bytes) : i / narrow.bytes ∈ places :=
        (members _).2 (Nat.div_lt_of_lt_mul (by rwa [whole]))
      rw [Access.after_of_ok stored, loads.answer_eq]
      exact loadNat_of_holdsParts inside' small all (held places fun j listed => .inl listed)
  · intro p offset word
    refine ⟨?_, ?_⟩
    · intro narrow
      have size : Scalar.bytes M .word = Scalar.bytes M .int := by
        rw [Scalar.bytes_word, Model.bytes, narrow]
        rfl
      exact answer_read_eq (s := .word) (t := .int) (by decide) (by decide) size r p offset
    · intro wide
      have size : Scalar.bytes M .word = Scalar.bytes M .long := by
        rw [Scalar.bytes_word, Model.bytes, wide]
        rfl
      exact answer_read_eq (s := .word) (t := .long) (by decide) (by decide) size r p offset

/-- A long and its four shorts in a big region, across two cells, stored out of order. -/
theorem kinds_alias_by_slices_of_long :
    let p : Pointer .target32 := ⟨.ofBits 0x1003⟩
    let whole : Access Region Unit := p.write .long .zero (0x0102030405060708 : Int64)
    let parts : List (Access Region Unit) :=
      [p.write .char (.ofInt 4) (0x0506 : UInt16),
        .update fun r => Memory.storeNat r 2 (0x1003 : BitVec 64) 0x0102,
        p.write .short (.ofInt 6) (0x0708 : Int16),
        p.write .char (.ofInt 2) (0x0304 : UInt16)]
    ∃ r, zeros 0x1000 16 .big = .ok r ∧
      (Scalar.encode .target32 .short <$> p.read .short (.ofInt 2)).answer (whole.after r) =
        .ok 0x0304 ∧
      (Scalar.encode .target32 .double <$> p.read .double .zero).answer
        ((parts.forM id).after r) = .ok 0x0102030405060708 := by
  intro p whole parts
  refine ⟨_, rfl, ?_, ?_⟩
  · refine (((kinds_alias_by_slices .target32 _).1 .bits16 .bits64 (by decide) 0x1003 (by decide)
      0x0102030405060708 (by decide)).1 whole ?_).2 1 (by decide) _ ?_
    · exact .value p .long .zero _ rfl (by decide) (by decide)
    · exact .value p .short (.ofInt 2) nofun rfl (by decide)
  · have members (j : Nat) : j ∈ [2, 0, 3, 1] ↔ j < Width.bits64.bytes / Width.bits16.bytes := by
      change j ∈ [2, 0, 3, 1] ↔ j < 4
      simp only [List.mem_cons, List.not_mem_nil, or_false]
      omega
    refine (((kinds_alias_by_slices .target32 _).1 .bits16 .bits64 (by decide) 0x1003 (by decide)
      0x0102030405060708 (by decide)).2 [2, 0, 3, 1] parts members ?_).2 _ ?_
    · refine .cons ?_ (.cons ?_ (.cons ?_ (.cons ?_ .nil)))
      · exact .value p .char (.ofInt 4) _ rfl (by decide) (by decide)
      · exact .number
      · exact .value p .short (.ofInt 6) _ rfl (by decide) (by decide)
      · exact .value p .char (.ofInt 2) _ rfl (by decide) (by decide)
    · exact .value p .double .zero nofun rfl (by decide)

end Region

end MachineWord
