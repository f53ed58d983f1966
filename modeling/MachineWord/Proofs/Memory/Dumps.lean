import Mathlib
import MachineWord.Memory.Lines
import MachineWord.Proofs.Memory.Refinement

/-!
# Dumps of regions

A dump takes the bytes of a region sixteen at a time, and the address grows with them. So line `i`
shows the bytes from the distance `16 * i` on, up to the end of the region, and is read back as one
row of a table (`readByteRow_lineChars`). The bytes of all rows together are those of the region
(`flatMap_dumpRow`).

The machine computes the address of a line from its number, by a product and a sum of 64 bits.
Neither of them overflows, since a line has a byte of the region (`machineDump_eq`).
-/

set_option autoImplicit false

namespace MachineWord

theorem mapM_eq_ok_map {α β : Type} {f : α → Except Fault β} {g : α → β} {items : List α}
    (each : ∀ a ∈ items, f a = .ok (g a)) : items.mapM f = .ok (items.map g) := by
  induction items with
  | nil => rfl
  | cons a rest ih =>
      obtain ⟨first, others⟩ := List.forall_mem_cons.1 each
      rw [List.mapM_cons, first, ih others]
      rfl

theorem newline_not_mem_entries (bytes : List UInt8) : '\n' ∉ bytes.flatMap byteEntry := by
  have digits : ∀ d : Fin 16, d.val.digitChar ≠ '\n' := by decide
  intro listed
  obtain ⟨b, -, char⟩ := List.mem_flatMap.1 listed
  have small := b.toNat_lt
  simp only [byteEntry, List.mem_cons, List.not_mem_nil, or_false] at char
  rcases char with blank | high | low
  · exact absurd blank (by decide)
  · exact digits ⟨b.toNat / 16, by omega⟩ high.symm
  · exact digits ⟨b.toNat % 16, by omega⟩ low.symm

namespace Region

/-! ## Lines -/

/-- A line of a dump without its newline. -/
def lineChars (address : Nat) (bytes : List UInt8) : List Char :=
  '0' :: 'x' :: (Numeral.zeroFilled 8 address ++ ':' :: bytes.flatMap byteEntry)

section Line

variable (address : Nat) (bytes : List UInt8)

theorem toList_dumpLine : (dumpLine address bytes).toList = lineChars address bytes ++ ['\n'] := by
  simp only [dumpLine, String.toList_append, Numeral.toList_paddedHex, toList_dumpBytes]
  simp [lineChars]

theorem newline_not_mem_lineChars : '\n' ∉ lineChars address bytes := by
  intro listed
  simp only [lineChars, List.mem_cons, List.mem_append] at listed
  rcases listed with zero | marker | digit | colon | entry
  · exact absurd zero (by decide)
  · exact absurd marker (by decide)
  · exact absurd (Numeral.isDigit_of_mem_zeroFilled _ digit) (by decide)
  · exact absurd colon (by decide)
  · exact newline_not_mem_entries bytes entry

/-- The address and the bytes are read back from a line. -/
theorem readByteRow_lineChars : readByteRow (lineChars address bytes) = some (address, bytes) := by
  have plain : ':' ∉ Numeral.zeroFilled 8 address := fun listed =>
    absurd (Numeral.isDigit_of_mem_zeroFilled _ listed) (by decide)
  have eight : 8 ≤ (Numeral.zeroFilled 8 address).length := by
    rw [Numeral.length_zeroFilled]
    exact le_max_left _ _
  simp [lineChars, readByteRow, cutAt_append plain, eight, Numeral.read?_zeroFilled,
    readEntries_flatMap_byteEntry]

end Line

/-- The lines of a dump by their numbers. -/
theorem dumpLines_eq (address : Nat) (bytes : List UInt8) :
    dumpLines address bytes = (List.range ((bytes.length + 15) / 16)).map fun i =>
      dumpLine (address + 16 * i) ((bytes.drop (16 * i)).take 16) := by
  fun_induction dumpLines address bytes with
  | case1 => rfl
  | case2 address bytes nonempty ih =>
      have positive := List.length_pos_iff.2 nonempty
      have count : (bytes.length + 15) / 16 =
          ((bytes.drop lineBytes).length + 15) / 16 + 1 := by
        rw [List.length_drop, lineBytes]
        omega
      rw [count, List.range_succ_eq_map, List.map_cons, List.map_map, ih]
      refine List.cons_eq_cons.2 ⟨?_, List.map_congr_left fun i _ => ?_⟩
      · rw [Nat.mul_zero, Nat.add_zero, List.drop_zero, lineBytes]
      · have address_eq : address + lineBytes + 16 * i = address + 16 * i.succ := by
          rw [lineBytes]
          omega
        have distance_eq : lineBytes + 16 * i = 16 * i.succ := by
          rw [lineBytes]
          omega
        rw [Function.comp_apply, List.drop_drop, address_eq, distance_eq]

/-! ## Rows -/

variable (r : Region)

/-- The number of lines that show all bytes. -/
def lineCount : Nat := (r.size + 15) / 16

/-- The address of the first byte of a line, and the bytes of the line. -/
def dumpRow (i : Nat) : Nat × List UInt8 :=
  (r.base.toNat + 16 * i, r.bytesAt (16 * i) (min (16 * i + 16) r.size - 16 * i))

/-- The bytes of a line are sixteen bytes of the region or those that are left. -/
theorem take_drop_dumpRow (i : Nat) (left : i < r.lineCount) :
    ((r.bytesAt 0 r.size).drop (16 * i)).take 16 = (r.dumpRow i).2 := by
  have begun : 16 * i < r.size := by
    rw [lineCount] at left
    omega
  have taken : ((r.bytesAt 0 r.size).drop (16 * i)).take (min (16 * i + 16) r.size - 16 * i) =
      r.bytesAt (0 + 16 * i) (min (16 * i + 16) r.size - 16 * i) :=
    r.take_drop_bytesAt (by omega)
  rw [Nat.zero_add] at taken
  rw [dumpRow, ← taken, List.take_eq_take_iff, List.length_drop, length_bytesAt]
  omega

/-- The bytes of all lines are the bytes of the region. -/
theorem flatMap_dumpRow :
    (List.range r.lineCount).flatMap (fun i => (r.dumpRow i).2) = r.bytesAt 0 r.size := by
  have upTo (n : Nat) : (List.range n).flatMap (fun i => (r.dumpRow i).2) =
      r.bytesAt 0 (min (16 * n) r.size) := by
    induction n with
    | zero => simp [bytesAt]
    | succ n ih =>
        rw [List.range_succ, List.flatMap_append, ih, List.flatMap_singleton, dumpRow]
        by_cases more : 16 * n < r.size
        · rw [Nat.min_eq_left more.le]
          have split : min (16 * (n + 1)) r.size =
              16 * n + (min (16 * n + 16) r.size - 16 * n) := by omega
          rw [split, bytesAt_add, Nat.zero_add]
        · have none : min (16 * n + 16) r.size - 16 * n = 0 := by omega
          rw [none, Nat.min_eq_right (by omega), Nat.min_eq_right (by omega)]
          simp [bytesAt]
  rw [upTo, Nat.min_eq_right]
  rw [lineCount]
  omega

/-! ## Dumps -/

theorem dump_eq : r.dump = .ok (String.join ((List.range r.lineCount).map fun i =>
    dumpLine (r.dumpRow i).1 (r.dumpRow i).2)) := by
  rw [dump, snapshot_eq]
  change Except.ok (String.join (dumpLines _ _)) = _
  rw [dumpLines_eq, length_bytesAt]
  congr 2
  apply List.map_congr_left
  intro i listed
  rw [r.take_drop_dumpRow i (List.mem_range.1 listed)]
  rfl

/-- The address of a line as the machine computes it, in 64 bits. -/
def lineAddress (line : Nat) : Except Fault (BitVec 64) :=
  if UInt64.size ≤ line * 16 then .error .overflow
  else if UInt64.size ≤ r.base.toNat + line * 16 then .error .overflow
  else .ok (r.base + BitVec.ofNat 64 (line * 16))

/-- A dump with the addresses that the machine computes. -/
def machineDump : Except Fault String := do
  let bytes ← r.snapshot
  let lines ← (List.range ((bytes.length + 15) / 16)).mapM fun i => do
    return dumpLine (← r.lineAddress i).toNat ((bytes.drop (16 * i)).take 16)
  return String.join lines

/-- No address of a line overflows. -/
theorem lineAddress_eq {i : Nat} (left : i < r.lineCount) :
    ∃ address, r.lineAddress i = .ok address ∧ address.toNat = (r.dumpRow i).1 := by
  have space : r.base.toNat + r.size < UInt64.size := r.end_lt
  rw [lineCount] at left
  refine ⟨r.base + BitVec.ofNat 64 (i * 16), ?_, ?_⟩
  · rw [lineAddress, if_neg (by omega), if_neg (by omega)]
  · change _ < 2 ^ 64 at space
    rw [dumpRow, BitVec.toNat_add, BitVec.toNat_ofNat, Nat.add_mod_mod, Nat.mod_eq_of_lt (by omega),
      Nat.mul_comm]

theorem machineDump_eq : r.machineDump = r.dump := by
  have lines : (List.range r.lineCount).mapM (fun i => do
      return dumpLine (← r.lineAddress i).toNat (((r.bytesAt 0 r.size).drop (16 * i)).take 16)) =
      .ok ((List.range r.lineCount).map fun i => dumpLine (r.dumpRow i).1 (r.dumpRow i).2) := by
    apply mapM_eq_ok_map
    intro i listed
    have left := List.mem_range.1 listed
    obtain ⟨address, computed, address_eq⟩ := r.lineAddress_eq left
    rw [computed, r.take_drop_dumpRow i left, ← address_eq]
    rfl
  rw [dump_eq, machineDump, snapshot_eq]
  simp only [bind, Except.bind, length_bytesAt] at lines ⊢
  rw [← lineCount, lines]
  rfl

/-- A text shows the bytes of a region: it is a table with a row for each line, and the bytes of all
rows together are those of the snapshot. -/
structure ShownBy (text : String) : Prop where
  rows_eq : readTable readByteRow text = some ((List.range r.lineCount).map r.dumpRow)
  bytes_eq : r.snapshot = .ok (((List.range r.lineCount).map r.dumpRow).flatMap Prod.snd)

/-- The dump of a region is made without a fault, also by the machine, and shows its bytes. -/
theorem exists_dump : ∃ text, r.dump = .ok text ∧ r.machineDump = .ok text ∧ r.ShownBy text := by
  refine ⟨_, r.dump_eq, r.machineDump_eq.trans r.dump_eq, ?_, ?_⟩
  · exact readTable_join _ fun i _ => ⟨_, toList_dumpLine _ _, newline_not_mem_lineChars _ _,
      readByteRow_lineChars _ _⟩
  · rw [snapshot_eq, List.flatMap_map, flatMap_dumpRow]

end Region

end MachineWord
