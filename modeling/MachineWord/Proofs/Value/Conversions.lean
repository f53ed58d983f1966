import Mathlib
import MachineWord.Proofs.Arithmetic.Quotients
import MachineWord.Proofs.Arithmetic.Views
import MachineWord.Proofs.Value.Cells
import MachineWord.Register.Runs
import MachineWord.Value.Native

/-!
# Conversions of values

Ints are recovered from their values, and values from their longs. A long is recovered from its
value only if the view represents it (`View.Represents`): longs of offsets are extended by their
sign, and all others by zeros. The two values of an int are the same unless the int is negative and
a word is longer than an int. A chain of views keeps the pattern of the value, so it is undone by
its first view (`Register.run_views`).
-/

set_option autoImplicit false

namespace MachineWord

variable {M : Model} {v : View}

/-- The longs whose bits fit into a word. These are all if a word has the bits of a long. -/
def Model.HasLong (M : Model) (n : Int64) : Prop :=
  match M.size with
  | .w32 => 0 ≤ n.toInt ∧ n.toInt < 2 ^ 32
  | .w64 => True

/-- The longs that a view represents: the signed numbers of the size of a word for offsets, and the
longs whose bits fit into a word for all other views. -/
def View.Represents (v : View) (M : Model) (n : Int64) : Prop :=
  if v.isSigned then M.HasSigned n.toInt else M.HasLong n

theorem Model.truncate_long_eq_iff (n : Int64) :
    M.truncate n.toBitVec = n.toBitVec ↔ M.HasLong n := by
  have pattern := BitVec.toInt_eq_toNat_cond n.toBitVec
  have bound := n.toBitVec.isLt
  rw [truncate_eq_self_iff]
  rcases M with ⟨_ | _, mode⟩
  · change _ < 2 ^ 32 ↔ 0 ≤ n.toBitVec.toInt ∧ n.toBitVec.toInt < 2 ^ 32
    split at pattern <;> omega
  · exact iff_true_intro bound

namespace Value

/-! ## Longs -/

variable (x : Value M v)

theorem ofLong_toLong : ofLong x.toLong = x := by
  rw [ofLong_eq, ofNumber_toLong]

/-- The long of a value is its pattern, extended by the sign or by zeros. -/
theorem toInt_toLong : x.toLong.toInt =
    (x.bits.toNat : Int).bmod (2 ^ if v.isSigned then M.bits else 64) := by
  rw [toLong]
  split
  · exact toInt_signExtend x.bits
  · exact BitVec.toInt_eq_toNat_bmod x.bits

theorem toLong_ofLong_iff (n : Int64) : (ofLong n : Value M v).toLong = n ↔ v.Represents M n := by
  rw [toLong, View.Represents, ofLong, bits_ofBits]
  split
  · rw [M.signExtend_congr (M.lowBits_truncate n.toBitVec), M.signExtend_toBitVec_eq_iff,
      Model.HasSigned]
  · rw [← M.truncate_long_eq_iff, ← Int64.toBitVec_inj, Int64.toBitVec_ofBitVec]

/-! ## Ints -/

theorem ofInt_eq_ofLong (n : Int32) : (ofInt n : Value M v) = ofLong n.toInt64 := by
  rw [ofInt_eq, ofLong_eq, Int32.toInt_toInt64]

/-- Extending an int by its sign or by zeros makes a difference for a negative one only, and only
if a word is longer than an int. -/
theorem ofInt_eq_ofUnsignedInt_iff (n : Int32) :
    (ofInt n : Value M v) = ofUnsignedInt n ↔ 0 ≤ n.toInt ∨ M.size = .w32 := by
  have lower := n.le_toInt
  have upper := n.toInt_lt
  rw [ofInt_eq, ofUnsignedInt_eq, ofNumber_inj, Int.modEq_iff_dvd]
  rcases M with ⟨_ | _, mode⟩
  · change (2 : Int) ^ 32 ∣ n.toInt % 2 ^ 32 - n.toInt ↔ _
    exact iff_of_true (by omega) (.inr rfl)
  · have longer : ¬ WordSize.w64 = .w32 := by decide
    change (2 : Int) ^ 64 ∣ n.toInt % 2 ^ 32 - n.toInt ↔ 0 ≤ n.toInt ∨ WordSize.w64 = .w32
    rw [or_iff_left longer]
    omega

end Value

/-! ## Single views -/

theorem Address.equalsInt_iff (x : Address M) (n : Int32) :
    x.equalsInt n = true ↔ (x.bits.toNat : Int) = n.toInt % 2 ^ M.bits := by
  rw [equalsInt, beq_iff_eq, Value.ofInt_eq, ← Value.toNat_bits_ofNumber (v := .address),
    Int.ofNat_inj, BitVec.toNat_inj, Value.bits_inj]

/-- An offset is negative if its sign bit is set. -/
theorem Offset.isNegative_eq (x : Offset M) : x.isNegative = M.signBit x.bits := by
  have number : x.toLong.toInt = (x.bits.setWidth M.bits).toInt :=
    BitVec.toInt_signExtend_of_le M.bits_le
  calc x.isNegative = decide (x.toLong.toInt < 0) := decide_eq_decide.2 Int64.lt_iff_toInt_lt
    _ = (x.bits.setWidth M.bits).msb := by rw [number, BitVec.msb_eq_toInt]
    _ = M.signBit x.bits := by
      rw [BitVec.msb_eq_getLsbD_last, BitVec.getLsbD_setWidth, decide_eq_true M.bits_sub_one_lt,
        Bool.true_and, Model.signBit]

/-! ## Chains of views -/

/-- The edit looks at the same word again. -/
def Register.Edit.IsView : Register.Edit → Prop
  | .view _ | .rewrap => True
  | .set .. | .operate _ => False

namespace Register

variable {edit : Edit}

/-- A view keeps the word, and is answered with a text. -/
theorem step_view (isView : edit.IsView) (r : Register M) :
    ∃ text view, r.step (.edit edit) = .ok (.text text, ⟨view, r.value.as view⟩) := by
  cases edit with
  | view view => exact ⟨_, view, rfl⟩
  | rewrap => exact ⟨_, r.view, rfl⟩
  | set | operate => exact isView.elim

/-- A chain of views looks at the word under the last of them. -/
theorem run_views (r : Register M) (edits : List Edit) (views : ∀ edit ∈ edits, edit.IsView) :
    ∃ answers view, r.run (edits.map .edit) = (answers, ⟨view, r.value.as view⟩) ∧
      ∀ answer ∈ answers, ∃ text, answer = .ok (.text text) := by
  induction edits generalizing r with
  | nil => exact ⟨[], r.view, rfl, by simp⟩
  | cons edit rest ih =>
      obtain ⟨text, view, stepped⟩ := step_view (views edit List.mem_cons_self) r
      obtain ⟨answers, last, ran, answered⟩ := ih ⟨view, r.value.as view⟩
        fun other member => views other (List.mem_cons_of_mem _ member)
      refine ⟨_, last, run_cons_of_ok stepped ran, fun answer member => ?_⟩
      rcases List.mem_cons.1 member with rfl | later
      · exact ⟨text, rfl⟩
      · exact answered answer later

end Register

open Value in
/-- **Values are converted to native integers and back.** An int is recovered from its value,
whether it was extended by its sign or by zeros. The long of a value is its pattern, extended by the
sign for offsets and by zeros for all other views, and the value is recovered from it. A long is
recovered from its value exactly if the view represents it. The two values of an int are the same
exactly if it is not negative or a word is no longer than an int, and the one with the sign is that
of the int as a long. An address equals an int if it is the remainder of the int modulo the number
of words. An offset is negative if its highest bit is set. A chain of views keeps the pattern of a
value, and returns to the value if it ends with the view it started from. -/
theorem values_convert_to_native_integers (M : Model) (v : View) :
    (∀ n : Int32, (ofInt n : Value M v).toInt = n ∧ (ofUnsignedInt n : Value M v).toInt = n) ∧
    (∀ x : Value M v, ofLong x.toLong = x ∧ x.toLong.toInt =
      (x.bits.toNat : Int).bmod (2 ^ if v.isSigned then M.bits else 64)) ∧
    (∀ n : Int64, (ofLong n : Value M v).toLong = n ↔ v.Represents M n) ∧
    (∀ n : Int32, (ofInt n : Value M v) = ofUnsignedInt n ↔ 0 ≤ n.toInt ∨ M.size = .w32) ∧
    (∀ n : Int32, (ofInt n : Value M v) = ofLong n.toInt64) ∧
    (∀ (x : Address M) (n : Int32),
      x.equalsInt n = true ↔ (x.bits.toNat : Int) = n.toInt % 2 ^ M.bits) ∧
    (∀ x : Offset M, x.isNegative = M.signBit x.bits) ∧
    ∀ (x : Value M v) (edits : List Register.Edit), (∀ edit ∈ edits, edit.IsView) →
      ∃ answers last, Register.run ⟨v, x⟩ (edits.map .edit) = (answers, last) ∧
        (∀ answer ∈ answers, ∃ text, answer = .ok (.text text)) ∧
        last.value.bits = x.bits ∧ (last.view = v → last = ⟨v, x⟩) := by
  refine ⟨fun n => ⟨toInt_ofInt n, toInt_ofUnsignedInt n⟩,
    fun x => ⟨x.ofLong_toLong, x.toInt_toLong⟩, toLong_ofLong_iff, ofInt_eq_ofUnsignedInt_iff,
    ofInt_eq_ofLong, Address.equalsInt_iff, Offset.isNegative_eq, ?_⟩
  intro x edits views
  obtain ⟨answers, view, ran, answered⟩ := Register.run_views ⟨v, x⟩ edits views
  refine ⟨answers, _, ran, answered, rfl, ?_⟩
  intro same
  change view = v at same
  subst same
  rfl

/-- A pattern beyond the signed numbers of 32 bits returns from a chain of views. The long with
this pattern is recovered from the size but not from the offset. -/
theorem values_convert_to_native_integers_of_sign_bit :
    let x : Offset .hosted32 := .ofLong 0x80000000
    let edits : List Register.Edit := [.view .size, .rewrap, .view .address, .view .offset]
    (∃ answers last, Register.run ⟨.offset, x⟩ (edits.map .edit) = (answers, last) ∧
      (∀ answer ∈ answers, ∃ text, answer = .ok (.text text)) ∧ last.value.bits = x.bits) ∧
    x.isNegative = true ∧ x.toLong ≠ 0x80000000 ∧
    (Value.ofLong 0x80000000 : Size .hosted32).toLong = 0x80000000 := by
  intro x edits
  obtain ⟨-, -, longs, -, -, -, negative, chains⟩ :=
    values_convert_to_native_integers .hosted32 .offset
  obtain ⟨answers, last, ran, answered, same, -⟩ := chains x edits (by
    simp [edits, Register.Edit.IsView])
  obtain ⟨-, -, sizes, -⟩ := values_convert_to_native_integers .hosted32 .size
  have beyond : ¬ View.offset.Represents .hosted32 0x80000000 := fun signed =>
    absurd (signed : Model.HasSigned .hosted32 _).2 (by decide)
  have within : View.size.Represents .hosted32 0x80000000 :=
    show _ ∧ _ from by decide
  exact ⟨⟨answers, last, ran, answered, same⟩, (negative x).trans (by decide),
    mt (longs 0x80000000).1 beyond, (sizes 0x80000000).2 within⟩

end MachineWord
