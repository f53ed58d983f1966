import MachineWord.Fault

/-!
# Indices

Indices are ints. Plain arithmetic on them is exact: a result that an int cannot hold is
refused as an overflow. A number that is not the result of such arithmetic is taken into an
int by its low 32 bits.
-/

set_option autoImplicit false

namespace MachineWord

/-- The int with an exact value. -/
def exactIndex (n : Int) : Except Fault Int32 :=
  if Int32.minValue.toInt ≤ n ∧ n ≤ Int32.maxValue.toInt then .ok (Int32.ofInt n)
  else .error .overflow

/-- The int with the low 32 bits of a number. -/
def wrapIndex (n : Nat) : Int32 := Int32.ofNat n

theorem toInt_of_exactIndex {n : Int} {i : Int32} (h : exactIndex n = .ok i) : i.toInt = n := by
  unfold exactIndex at h
  split at h
  next range =>
    cases h
    exact Int32.toInt_ofInt_of_le range.1 (Int.lt_add_one_of_le range.2)
  next => cases h

theorem toInt_exactIndex {n : Int} (lower : -0x80000000 ≤ n) (upper : n < 0x80000000) :
    ∃ i, exactIndex n = .ok i ∧ i.toInt = n := by
  have range : Int32.minValue.toInt ≤ n ∧ n ≤ Int32.maxValue.toInt := by
    have least : Int32.minValue.toInt = -0x80000000 := rfl
    have greatest : Int32.maxValue.toInt = 0x80000000 - 1 := rfl
    omega
  have exact_eq : exactIndex n = .ok (Int32.ofInt n) := if_pos range
  exact ⟨Int32.ofInt n, exact_eq, toInt_of_exactIndex exact_eq⟩

/-- The result of plain arithmetic is an int, or refused because an int cannot hold it. -/
theorem exactIndex_cases (n : Int) :
    (∃ i, exactIndex n = .ok i ∧ i.toInt = n) ∨
      (exactIndex n = .error .overflow ∧ (n < -0x80000000 ∨ 0x80000000 ≤ n)) := by
  by_cases range : -0x80000000 ≤ n ∧ n < 0x80000000
  · exact .inl (toInt_exactIndex range.1 range.2)
  · right
    have least : Int32.minValue.toInt = -0x80000000 := rfl
    have greatest : Int32.maxValue.toInt = 0x80000000 - 1 := rfl
    exact ⟨if_neg (by omega), by omega⟩

theorem toInt_wrapIndex {n : Nat} (small : n < 0x80000000) : (wrapIndex n).toInt = n :=
  Int32.toInt_ofNat_of_lt small

end MachineWord
