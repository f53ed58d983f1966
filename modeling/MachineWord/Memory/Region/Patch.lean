import Mathlib
import MachineWord.Memory.Region.Bytes

/-!
# Patches of a region

A store patches a run of bytes. A region is determined by its place, its order and its bytes
(`ext_bytes`), so a patch with the bytes that are there already changes nothing, and patches
of two runs that do not overlap give the same region in either order (`Patched.comm`).
-/

set_option autoImplicit false

namespace MachineWord

namespace Region

/-- A cell is made of eight bytes of the region. -/
theorem cellBytes_getD (r : Region) (i : Nat) :
    cellBytes (r.cells.getD i 0) = r.bytesAt (8 * i) 8 := by
  have cell := r.bytesAt_of_cell (show 8 * i % 8 + 8 ≤ 8 by omega)
  rw [Nat.mul_div_cancel_left i (by decide), Nat.mul_mod_right, List.drop_zero,
    List.take_of_length_le (by rw [length_cellBytes])] at cell
  exact cell

theorem bytesAt_congr {r next : Region} {distance count : Nat}
    (same : ∀ i, distance ≤ i → i < distance + count → next.byte i = r.byte i) :
    next.bytesAt distance count = r.bytesAt distance count := by
  apply List.map_congr_left
  intro i member
  rw [List.mem_range'_1] at member
  exact same i member.1 member.2

/-- A region is determined by its place, its order and its bytes. -/
theorem ext_bytes {r next : Region} (base_eq : next.base = r.base) (size_eq : next.size = r.size)
    (order_eq : next.order = r.order) (byte_eq : ∀ i, next.byte i = r.byte i) : next = r := by
  have cells_eq : next.cells = r.cells := by
    have sizes : next.cells.size = r.cells.size := by
      rw [next.size_cells, r.size_cells, size_eq]
    apply Array.ext sizes
    intro i hi ho
    have cells : next.cells.getD i 0 = r.cells.getD i 0 := by
      rw [← ofCellBytes_cellBytes (next.cells.getD i 0), cellBytes_getD,
        bytesAt_congr fun j _ _ => byte_eq j, ← cellBytes_getD, ofCellBytes_cellBytes]
    simpa [Array.getD_eq_getD_getElem?, hi, ho] using cells
  cases next
  cases r
  cases base_eq
  cases size_eq
  cases order_eq
  cases cells_eq
  rfl

namespace Patched

variable {r next : Region} {distance : Nat} {bytes : List UInt8}

/-- The bytes that have been put in. -/
theorem bytesAt_self (patched : Patched r distance bytes next) :
    next.bytesAt distance bytes.length = bytes := by
  apply List.ext_getElem
  · exact length_bytesAt _ _ _
  · intro i _ hi
    have byte := patched.byte_eq (distance + i)
    rw [if_pos (by omega), Nat.add_sub_cancel_left, List.getD_eq_getElem?_getD,
      List.getElem?_eq_getElem hi, Option.getD_some] at byte
    simpa [bytesAt] using byte

/-- The bytes of a run that contains those that have been put in. -/
theorem bytesAt_overlay (patched : Patched r distance bytes next) {start offset total : Nat}
    (here : distance = start + offset) (fits : offset + bytes.length ≤ total) :
    next.bytesAt start total = overlay (r.bytesAt start total) offset bytes := by
  have whole : offset + bytes.length ≤ (r.bytesAt start total).length := by
    rwa [length_bytesAt]
  apply List.ext_getElem
  · rw [length_bytesAt, length_overlay whole, length_bytesAt]
  · intro i hi ho
    rw [length_bytesAt] at hi
    have byte := getD_overlay whole i
    rw [List.getD_eq_getElem?_getD, List.getElem?_eq_getElem ho, Option.getD_some,
      r.getD_bytesAt hi] at byte
    rw [byte]
    simp only [bytesAt, List.getElem_map, List.getElem_range', Nat.one_mul]
    rw [patched.byte_eq, here]
    by_cases inside : offset ≤ i ∧ i < offset + bytes.length
    · rw [if_pos (by omega), if_pos inside]
      congr 1
      omega
    · rw [if_neg (by omega), if_neg inside]

/-- The bytes of a run that has not been touched. -/
theorem bytesAt_apart (patched : Patched r distance bytes next) {start count : Nat}
    (apart : start + count ≤ distance ∨ distance + bytes.length ≤ start) :
    next.bytesAt start count = r.bytesAt start count := by
  apply bytesAt_congr
  intro i first last
  rw [patched.byte_eq, if_neg (by omega)]

/-- The bytes put in decide what the region is afterwards. -/
theorem unique {last : Region} (patched : Patched r distance bytes next)
    (again : Patched r distance bytes last) : next = last := by
  apply ext_bytes
  · rw [patched.base_eq, again.base_eq]
  · rw [patched.size_eq, again.size_eq]
  · rw [patched.order_eq, again.order_eq]
  · intro i
    rw [patched.byte_eq, again.byte_eq]

/-- A patch with the bytes that are there already changes nothing. -/
theorem eq_of_bytesAt {count : Nat}
    (patched : Patched r distance (r.bytesAt distance count) next) : next = r := by
  apply ext_bytes patched.base_eq patched.size_eq patched.order_eq
  intro i
  rw [patched.byte_eq, length_bytesAt]
  split
  · rename_i inside
    rw [r.getD_bytesAt (by omega), Nat.add_sub_cancel' inside.1]
  · rfl

/-- Patches that do not overlap give the same region in either order. -/
theorem comm {other last last' : Region} {start : Nat} {part : List UInt8}
    (first : Patched r distance bytes next) (second : Patched next start part last)
    (first' : Patched r start part other) (second' : Patched other distance bytes last')
    (apart : start + part.length ≤ distance ∨ distance + bytes.length ≤ start) :
    last = last' := by
  apply ext_bytes
  · rw [second.base_eq, first.base_eq, second'.base_eq, first'.base_eq]
  · rw [second.size_eq, first.size_eq, second'.size_eq, first'.size_eq]
  · rw [second.order_eq, first.order_eq, second'.order_eq, first'.order_eq]
  · intro i
    rw [second.byte_eq, first.byte_eq, second'.byte_eq, first'.byte_eq]
    by_cases early : distance ≤ i ∧ i < distance + bytes.length
    · rw [if_neg (by omega), if_pos early, if_pos early]
    · rw [if_neg early, if_neg early]

end Patched

end Region

end MachineWord
