import Mathlib
import MachineWord.ByteOrder.Lemmas
import MachineWord.Memory.Region

/-!
# The bytes of a region

A region is seen as its bytes, numbered by their distance from the base. The parts of an
access partition it: each lies in one cell, and together they cover the access once and in
order (`partition_chunksFrom`). From what one part does follows what a whole access does.
Loading answers the bytes of the range accessed (`load_of_contains`), and storing replaces
the bytes of that range and no others (`store_of_contains`). Neither meets an index beyond
the cells, a range beyond some bytes or a sum beyond 64 bits.
-/

set_option autoImplicit false

namespace MachineWord

namespace Region

/-! ## Bytes of a cell -/

@[simp] theorem length_cellBytes (cell : BitVec 64) : (cellBytes cell).length = 8 :=
  ByteOrder.length_littleBytes 8 cell.toNat

@[simp] theorem ofCellBytes_cellBytes (cell : BitVec 64) : ofCellBytes (cellBytes cell) = cell := by
  apply BitVec.eq_of_toNat_eq
  rw [ofCellBytes, BitVec.toNat_ofNat, cellBytes, ByteOrder.ofLittleBytes_littleBytes]
  have := cell.isLt
  omega

theorem cellBytes_ofCellBytes {bytes : List UInt8} (h : bytes.length = 8) :
    cellBytes (ofCellBytes bytes) = bytes := by
  have bound := ByteOrder.ofLittleBytes_lt bytes
  have back := ByteOrder.littleBytes_ofLittleBytes bytes
  rw [h] at bound back
  rw [ofCellBytes, cellBytes, BitVec.toNat_ofNat, Nat.mod_eq_of_lt (by omega), back]

/-! ## Replacing bytes in a row -/

/-- The bytes in which some have been replaced from a position on. -/
def overlay (bytes : List UInt8) (start : Nat) (part : List UInt8) : List UInt8 :=
  bytes.take start ++ part ++ bytes.drop (start + part.length)

section Overlay

variable {bytes part : List UInt8} {start : Nat}

theorem splice_eq (fits : start + part.length ≤ bytes.length) :
    splice bytes start part = .ok (overlay bytes start part) := if_pos fits

theorem slice_eq {count : Nat} (fits : start + count ≤ bytes.length) :
    slice bytes start count = .ok ((bytes.drop start).take count) := if_pos fits

theorem length_overlay (fits : start + part.length ≤ bytes.length) :
    (overlay bytes start part).length = bytes.length := by
  simp only [overlay, List.length_append, List.length_take, List.length_drop]
  omega

theorem getD_overlay (fits : start + part.length ≤ bytes.length) (i : Nat) :
    (overlay bytes start part).getD i 0 =
      if start ≤ i ∧ i < start + part.length then part.getD (i - start) 0
      else bytes.getD i 0 := by
  simp only [overlay, List.getD_eq_getElem?_getD, List.getElem?_append, List.length_append,
    List.length_take, List.getElem?_take, List.getElem?_drop]
  rw [Nat.min_eq_left (by omega)]
  by_cases below : i < start
  · rw [if_pos (by omega), if_pos below, if_pos below, if_neg (by omega)]
  · by_cases inside : i < start + part.length
    · rw [if_pos (by omega), if_neg below, if_pos (by omega)]
    · rw [if_neg (by omega), if_neg (by omega)]
      congr 2
      omega

/-- Replacing all bytes gives the bytes put in their place. -/
theorem overlay_whole (fits : part.length = bytes.length) : overlay bytes 0 part = part := by
  simp [overlay, fits]

/-- The bytes put in are found where they have been put. -/
theorem take_drop_overlay_self (fits : start + part.length ≤ bytes.length) :
    ((overlay bytes start part).drop start).take part.length = part := by
  have before : (bytes.take start).length = start := by
    rw [List.length_take]
    omega
  rw [overlay, List.append_assoc, List.drop_left' before, List.take_left' rfl]

/-- Bytes apart from those replaced are the same. -/
theorem take_drop_overlay_apart (fits : start + part.length ≤ bytes.length) {i count : Nat}
    (apart : i + count ≤ start ∨ start + part.length ≤ i) :
    ((overlay bytes start part).drop i).take count = (bytes.drop i).take count := by
  apply List.ext_getElem
  · rw [List.length_take, List.length_take, List.length_drop, List.length_drop,
      length_overlay fits]
  · intro k inside inside'
    rw [List.length_take, List.length_drop] at inside inside'
    have byte := getD_overlay fits (i + k)
    rw [if_neg (by omega)] at byte
    simpa [List.getD_eq_getElem?_getD, show i + k < bytes.length by omega,
      show i + k < (overlay bytes start part).length by omega] using byte

end Overlay

/-! ## Bytes of a region -/

variable (r : Region)

/-- The byte at a distance from the base. -/
def byte (i : Nat) : UInt8 := (cellBytes (r.cells.getD (i / 8) 0)).getD (i % 8) 0

/-- A number of bytes from a distance on. -/
def bytesAt (distance count : Nat) : List UInt8 := (List.range' distance count).map r.byte

@[simp] theorem length_bytesAt (distance count : Nat) :
    (r.bytesAt distance count).length = count := by
  simp [bytesAt]

theorem getD_bytesAt {distance count i : Nat} (h : i < count) :
    (r.bytesAt distance count).getD i 0 = r.byte (distance + i) := by
  simp [bytesAt, List.getD_eq_getElem?_getD, h]

theorem bytesAt_add (distance first second : Nat) :
    r.bytesAt distance (first + second) =
      r.bytesAt distance first ++ r.bytesAt (distance + first) second := by
  rw [bytesAt, ← List.range'_append_1, List.map_append]
  rfl

/-- A part of a run of bytes. -/
theorem take_drop_bytesAt {distance start count total : Nat} (fits : start + count ≤ total) :
    ((r.bytesAt distance total).drop start).take count = r.bytesAt (distance + start) count := by
  obtain ⟨rest, split⟩ := Nat.exists_eq_add_of_le fits
  rw [split, bytesAt_add, bytesAt_add, List.append_assoc, List.drop_left' (length_bytesAt _ _ _),
    List.take_left' (length_bytesAt _ _ _)]

/-- Bytes of one cell as bytes of the region. -/
theorem bytesAt_of_cell {distance count : Nat} (h : distance % 8 + count ≤ 8) :
    ((cellBytes (r.cells.getD (distance / 8) 0)).drop (distance % 8)).take count =
      r.bytesAt distance count := by
  apply List.ext_getElem
  · simp only [List.length_take, List.length_drop, length_cellBytes, length_bytesAt]
    omega
  · intro i _ hi
    have inside : i < count := by rwa [length_bytesAt] at hi
    have cell : (distance + i) / 8 = distance / 8 := by omega
    have position : (distance + i) % 8 = distance % 8 + i := by omega
    have bound : distance % 8 + i < (cellBytes (r.cells.getD (distance / 8) 0)).length := by
      rw [length_cellBytes]
      omega
    simp only [List.getElem_take, List.getElem_drop, bytesAt, List.getElem_map,
      List.getElem_range', Nat.one_mul]
    rw [byte, cell, position, List.getD_eq_getElem?_getD, List.getElem?_eq_getElem bound,
      Option.getD_some]

/-- A region that agrees with another one except for the bytes from a distance on. -/
structure Patched (r : Region) (distance : Nat) (bytes : List UInt8) (next : Region) : Prop where
  base_eq : next.base = r.base
  size_eq : next.size = r.size
  order_eq : next.order = r.order
  byte_eq (i : Nat) : next.byte i =
    if distance ≤ i ∧ i < distance + bytes.length then bytes.getD (i - distance) 0 else r.byte i

theorem cellAt_eq {i : Nat} (h : i < r.cells.size) : r.cellAt i = .ok (r.cells.getD i 0) := by
  simp [cellAt, Array.getD_eq_getD_getElem?, h]

theorem byte_setCell {i : Nat} (h : i < r.cells.size) (cell : BitVec 64) (j : Nat) :
    (r.setCell i cell).byte j =
      if j / 8 = i then (cellBytes cell).getD (j % 8) 0 else r.byte j := by
  rw [byte, byte, setCell, Array.getD_eq_getD_getElem?, Array.getElem?_setIfInBounds]
  by_cases same : j / 8 = i
  · rw [if_pos same, if_pos same.symm, if_pos (same ▸ h), Option.getD_some]
  · rw [if_neg same, if_neg (Ne.symm same), Array.getD_eq_getD_getElem?]

/-- Replacing bytes of one cell replaces them in the region. -/
theorem patched_setCell {distance : Nat} (part : List UInt8)
    (cells : distance / 8 < r.cells.size) (fits : distance % 8 + part.length ≤ 8) :
    Patched r distance part (r.setCell (distance / 8)
      (ofCellBytes (overlay (cellBytes (r.cells.getD (distance / 8) 0)) (distance % 8) part))) where
  base_eq := rfl
  size_eq := rfl
  order_eq := rfl
  byte_eq i := by
    have whole : distance % 8 + part.length ≤
        (cellBytes (r.cells.getD (distance / 8) 0)).length := by
      rwa [length_cellBytes]
    have length := (length_overlay whole).trans (length_cellBytes _)
    rw [r.byte_setCell cells, cellBytes_ofCellBytes length, getD_overlay whole]
    by_cases same : i / 8 = distance / 8
    · by_cases inside : distance ≤ i ∧ i < distance + part.length
      · rw [if_pos same, if_pos (by omega), if_pos inside]
        congr 1
        omega
      · rw [if_pos same, if_neg (by omega), if_neg inside, byte, same]
    · rw [if_neg same, if_neg (by omega)]

namespace Patched

variable {r : Region} {distance : Nat} {bytes : List UInt8} {next : Region}

/-- Nothing has been replaced. -/
theorem refl (r : Region) (distance : Nat) : Patched r distance [] r where
  base_eq := rfl
  size_eq := rfl
  order_eq := rfl
  byte_eq i := by rw [List.length_nil, if_neg (by omega)]

theorem trans {later : List UInt8} {last : Region} (first : Patched r distance bytes next)
    (second : Patched next (distance + bytes.length) later last) :
    Patched r distance (bytes ++ later) last where
  base_eq := second.base_eq.trans first.base_eq
  size_eq := second.size_eq.trans first.size_eq
  order_eq := second.order_eq.trans first.order_eq
  byte_eq i := by
    rw [second.byte_eq, first.byte_eq, List.length_append, List.getD_eq_getElem?_getD,
      List.getD_eq_getElem?_getD, List.getD_eq_getElem?_getD, List.getElem?_append]
    by_cases early : distance ≤ i ∧ i < distance + bytes.length
    · rw [if_neg (by omega), if_pos early, if_pos (by omega), if_pos (by omega)]
    · by_cases late : distance + bytes.length ≤ i ∧ i < distance + bytes.length + later.length
      · rw [if_pos late, if_pos (by omega), if_neg (by omega)]
        congr 2
        omega
      · rw [if_neg late, if_neg early, if_neg (by omega)]

theorem size_cells_eq (patched : Patched r distance bytes next) :
    next.cells.size = r.cells.size := by
  rw [next.size_cells, r.size_cells, patched.size_eq]

theorem byte_of_le (patched : Patched r distance bytes next) {i : Nat}
    (h : distance + bytes.length ≤ i) : next.byte i = r.byte i := by
  rw [patched.byte_eq, if_neg (by omega)]

end Patched

/-! ## The parts of an access -/

/-- Chunks that cover, once and in order, the positions of an access from a position on. -/
inductive Partition (count : Nat) : (distance start : Nat) → List Chunk → Prop where
  | done (distance : Nat) : Partition count distance count []
  | part {distance start taken : Nat} {rest : List Chunk} (taken_pos : 0 < taken)
      (within_cell : distance % 8 + taken ≤ 8) (within_access : start + taken ≤ count)
      (later : Partition count (distance + taken) (start + taken) rest) :
      Partition count distance start (⟨distance / 8, distance % 8, start, taken⟩ :: rest)

/-- The parts of an access partition it. Their computation does not overflow. -/
theorem partition_chunksFrom {distance start count : Nat} (begun : start ≤ count)
    (reach : distance + (count - start) < UInt64.size) (bounded : count < UInt64.size) :
    ∃ parts, chunksFrom distance start count = .ok parts ∧
      Partition count distance start parts := by
  fun_induction chunksFrom distance start count with
  | case1 distance start more within taken small ih =>
      obtain ⟨rest, later, partition⟩ := ih (by omega) (by omega)
      refine ⟨⟨distance / 8, within, start, taken⟩ :: rest, ?_, ?_⟩
      · rw [later]
        rfl
      · exact .part (by omega) (by omega) (by omega) partition
  | case2 distance start more within taken large =>
      exact absurd ⟨by omega, by omega⟩ large
  | case3 distance start finished =>
      obtain rfl : start = count := by omega
      exact ⟨[], rfl, .done distance⟩

theorem chunks_eq (distance count : Nat) (reach : distance + count < UInt64.size) :
    ∃ parts, chunks distance count = .ok parts ∧ Partition count distance 0 parts :=
  partition_chunksFrom (Nat.zero_le count) reach (by omega)

/-! ## Loading -/

/-- A part of a load gives its bytes of the region. -/
theorem loadChunk_eq {distance start taken count : Nat} (cells : distance / 8 < r.cells.size)
    (within_cell : distance % 8 + taken ≤ 8) (within_access : start + taken ≤ count) :
    r.loadChunk count ⟨distance / 8, distance % 8, start, taken⟩ =
      .ok (r.bytesAt distance taken) := by
  rw [loadChunk, r.cellAt_eq cells]
  simp only [bind, Except.bind, if_pos within_access]
  rw [slice_eq (by rwa [length_cellBytes]), r.bytesAt_of_cell within_cell]

/-- The parts of a load together give the bytes of the range. -/
theorem mapM_loadChunk {distance start count : Nat} {parts : List Chunk}
    (partition : Partition count distance start parts)
    (cells : distance + (count - start) ≤ 8 * r.cells.size) :
    ∃ pieces, parts.mapM (r.loadChunk count) = .ok pieces ∧
      pieces.flatten = r.bytesAt distance (count - start) := by
  induction partition with
  | done distance => exact ⟨[], rfl, by simp [bytesAt]⟩
  | @part distance start taken rest taken_pos within_cell within_access _ ih =>
      obtain ⟨pieces, loaded, joined⟩ := ih (by omega)
      refine ⟨r.bytesAt distance taken :: pieces, ?_, ?_⟩
      · rw [List.mapM_cons, r.loadChunk_eq (by omega) within_cell within_access, loaded]
        rfl
      · have split : count - start = taken + (count - (start + taken)) := by omega
        rw [List.flatten_cons, joined, split, bytesAt_add]

/-! ## Storing -/

/-- A part of a store replaces its bytes of the region. -/
theorem storeChunk_eq {distance start taken : Nat} {bytes : List UInt8}
    (cells : distance / 8 < r.cells.size) (within_cell : distance % 8 + taken ≤ 8)
    (within_access : start + taken ≤ bytes.length) :
    ∃ next, storeChunk bytes r ⟨distance / 8, distance % 8, start, taken⟩ = .ok next ∧
      Patched r distance ((bytes.drop start).take taken) next := by
  have length : ((bytes.drop start).take taken).length = taken := by
    rw [List.length_take, List.length_drop]
    omega
  have patched := r.patched_setCell ((bytes.drop start).take taken) cells (by rwa [length])
  rw [storeChunk, r.cellAt_eq cells, slice_eq within_access]
  simp only [bind, Except.bind, length]
  by_cases full : taken = 8
  · have aligned : distance % 8 = 0 := by omega
    rw [aligned, overlay_whole (by rw [length, length_cellBytes, full])] at patched
    exact ⟨_, if_pos full, patched⟩
  · rw [if_neg full, splice_eq (by rwa [length, length_cellBytes])]
    exact ⟨_, rfl, patched⟩

/-- The parts of a store together replace the bytes of the range. -/
theorem foldlM_storeChunk {distance start : Nat} {bytes : List UInt8} {parts : List Chunk}
    (partition : Partition bytes.length distance start parts)
    (cells : distance + (bytes.length - start) ≤ 8 * r.cells.size) :
    ∃ next, parts.foldlM (storeChunk bytes) r = .ok next ∧
      Patched r distance (bytes.drop start) next := by
  induction partition generalizing r with
  | done distance =>
      refine ⟨r, rfl, ?_⟩
      rw [List.drop_length]
      exact .refl r distance
  | @part distance start taken rest taken_pos within_cell within_access _ ih =>
      obtain ⟨between, stored, first⟩ := r.storeChunk_eq (by omega) within_cell within_access
      have length : ((bytes.drop start).take taken).length = taken := by
        rw [List.length_take, List.length_drop]
        omega
      obtain ⟨next, others, second⟩ := ih between (by rw [first.size_cells_eq]; omega)
      refine ⟨next, ?_, ?_⟩
      · rw [List.foldlM_cons, stored]
        exact others
      · rw [← List.take_append_drop taken (bytes.drop start), List.drop_drop]
        exact first.trans (by rwa [length])

/-! ## The range of an access -/

/-- A region contains bytes if they lie between its ends, without regard to overflow. -/
theorem contains_iff (address : BitVec 64) (count : Nat) :
    r.contains address count = true ↔
      r.base.toNat ≤ address.toNat ∧ address.toNat + count ≤ r.base.toNat + r.size := by
  have fits : r.base.toNat + r.size < 2 ^ 64 := r.end_lt
  rw [contains, Bool.and_eq_true, decide_eq_true_eq, BitVec.le_def, spanStop?,
    show UInt64.size = 2 ^ 64 from rfl]
  by_cases reach : address.toNat + count < 2 ^ 64
  · simp only [if_pos reach, Option.any_some, decide_eq_true_eq, BitVec.le_def, toNat_stop,
      BitVec.toNat_add, BitVec.toNat_ofNat]
    omega
  · rw [if_neg reach, Option.any_none]
    constructor
    · intro h
      exact absurd h.2 (by decide)
    · intro h
      omega

variable {r} {address : BitVec 64} {count : Nat}

theorem distance_of_contains (h : r.contains address count = true) :
    r.distance address count = .ok (address.toNat - r.base.toNat) := by
  have range := (r.contains_iff address count).1 h
  rw [distance, if_pos h, BitVec.toNat_sub_of_le (BitVec.le_def.2 range.1)]

theorem distance_of_not_contains (h : ¬ r.contains address count = true) :
    r.distance address count =
      .error (.outside count address.toNat r.base.toNat (r.base.toNat + r.size)) := by
  rw [distance, if_neg h, toNat_stop]

/-- Bytes that a region contains lie in its cells. -/
theorem reach_of_contains (h : r.contains address count = true) :
    address.toNat - r.base.toNat + count ≤ r.size ∧ r.size ≤ 8 * r.cells.size ∧
      r.size < UInt64.size := by
  have range := (r.contains_iff address count).1 h
  have fits := r.end_lt
  rw [r.size_cells]
  omega

/-- Loading answers the bytes of the range accessed. -/
theorem load_of_contains (h : r.contains address count = true) :
    r.load address count = .ok (r.bytesAt (address.toNat - r.base.toNat) count) := by
  obtain ⟨reach, cells, bounded⟩ := reach_of_contains h
  obtain ⟨parts, computed, partition⟩ :=
    chunks_eq (address.toNat - r.base.toNat) count (by omega)
  obtain ⟨pieces, loaded, joined⟩ := r.mapM_loadChunk partition (by omega)
  rw [load, distance_of_contains h]
  simp only [bind, Except.bind, computed, loaded, joined, Nat.sub_zero]
  rfl

theorem load_of_not_contains (h : ¬ r.contains address count = true) :
    r.load address count =
      .error (.outside count address.toNat r.base.toNat (r.base.toNat + r.size)) := by
  rw [load, distance_of_not_contains h]
  rfl

/-- Storing replaces the bytes of the range accessed and no others. -/
theorem store_of_contains {bytes : List UInt8} (h : r.contains address bytes.length = true) :
    ∃ next, r.store address bytes = .ok next ∧
      Patched r (address.toNat - r.base.toNat) bytes next := by
  obtain ⟨reach, cells, bounded⟩ := reach_of_contains h
  obtain ⟨parts, computed, partition⟩ :=
    chunks_eq (address.toNat - r.base.toNat) bytes.length (by omega)
  obtain ⟨next, stored, patched⟩ := r.foldlM_storeChunk partition (by omega)
  refine ⟨next, ?_, by rwa [List.drop_zero] at patched⟩
  rw [store, distance_of_contains h]
  simp only [bind, Except.bind, computed, stored]

theorem store_of_not_contains {bytes : List UInt8}
    (h : ¬ r.contains address bytes.length = true) :
    r.store address bytes =
      .error (.outside bytes.length address.toNat r.base.toNat (r.base.toNat + r.size)) := by
  rw [store, distance_of_not_contains h]
  rfl

theorem loadNat_of_contains (inside : r.contains address count = true) :
    Memory.loadNat r count address =
      .ok (r.order.decode (r.bytesAt (address.toNat - r.base.toNat) count)) := by
  change (r.load address count >>= _) = _
  rw [load_of_contains inside]
  rfl

theorem loadNat_of_not_contains (outside : ¬ r.contains address count = true) :
    Memory.loadNat r count address =
      .error (.outside count address.toNat r.base.toNat (r.base.toNat + r.size)) := by
  change (r.load address count >>= _) = _
  rw [load_of_not_contains outside]
  rfl

theorem storeNat_of_contains (inside : r.contains address count = true) (n : Nat) :
    ∃ next, Memory.storeNat r count address n = .ok next ∧
      Patched r (address.toNat - r.base.toNat) (r.order.encode count n) next := by
  have span : r.contains address (r.order.encode count n).length = true := by
    rwa [ByteOrder.length_encode]
  exact store_of_contains span

end Region

end MachineWord
