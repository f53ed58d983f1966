import Mathlib
import MachineWord.Proofs.Arithmetic.Roundings
import MachineWord.Register.Runs
import MachineWord.Value.Ints
import MachineWord.Value.Scan

/-!
# Words as sets of bits

A value is determined by its bits within a word (`Value.eq_iff_testBit`), and the operations on
bits look at each of them alone. Setting and clearing a bit are one assignment with two values
(`Value.withBit`), which leaves all other bits as they are and refuses an index beyond the word. So
after any sequence of such calls a bit has the value that was last assigned to it, or its old one
(`Register.run_assignments`).
-/

set_option autoImplicit false

namespace MachineWord

variable {M : Model} {v : View}

/-! ## Bits of values -/

namespace Value

theorem testBit_ofBits_of_lt (p : BitVec 64) {i : Nat} (inside : i < M.bits) :
    (ofBits p : Value M v).testBit i = p.getLsbD i := by
  have wide : i < 64 := inside.trans_le M.bits_le
  rw [testBit, bits_ofBits, Model.truncate_eq_setWidth]
  simp [inside, wide]

/-- A value is the set of its bits. -/
theorem eq_iff_testBit {x y : Value M v} :
    x = y ↔ ∀ i < M.bits, x.testBit i = y.testBit i := by
  constructor
  · rintro rfl _ _
    rfl
  · intro same
    apply ext_bits
    apply BitVec.eq_of_getLsbD_eq
    intro i _
    by_cases inside : i < M.bits
    · exact same i inside
    · rw [getLsbD_bits_of_le x (Nat.not_lt.1 inside), getLsbD_bits_of_le y (Nat.not_lt.1 inside)]

/-- The value with the bit at an index made set or clear. -/
def withBit (x : Value M v) (i : Nat) (b : Bool) : Value M v :=
  ofBits (if b then x.bits ||| BitVec.twoPow 64 i else x.bits &&& ~~~BitVec.twoPow 64 i)

variable (x : Value M v) {i : Nat}

/-- An assignment to one bit leaves all others as they are. -/
theorem testBit_withBit (i : Nat) (b : Bool) {j : Nat} (inside : j < M.bits) :
    (x.withBit i b).testBit j = if j = i then b else x.testBit j := by
  have small : j < 64 := inside.trans_le M.bits_le
  rw [withBit, testBit_ofBits_of_lt _ inside, testBit]
  by_cases same : j = i
  · cases b <;> simp [same, same ▸ small]
  · cases b <;> simp [same, small]

theorem bit_of_lt_bits (inside : i < M.bits) : bit M v i = .ok (BitVec.twoPow 64 i) :=
  if_pos inside

theorem bit_of_bits_le (beyond : M.bits ≤ i) : bit M v i = .error (.bitIndex v i M.bits) :=
  if_neg (Nat.not_lt.2 beyond)

/-- A pattern has a bit in common with a single bit if that one is set. -/
theorem and_twoPow_ne_zero (p : BitVec 64) (small : i < 64) :
    (p &&& BitVec.twoPow 64 i != 0) = p.getLsbD i := by
  have nonzero : BitVec.twoPow 64 i ≠ 0#64 := by
    intro zero
    have set : (BitVec.twoPow 64 i).getLsbD i = true := by simp [small]
    rw [zero] at set
    simp at set
  rw [BitVec.and_twoPow]
  cases p.getLsbD i <;> simp [nonzero]

theorem isBitSet_of_lt_bits (inside : i < M.bits) : x.isBitSet i = .ok (x.testBit i) := by
  rw [isBitSet, bit_of_lt_bits inside, testBit, ← and_twoPow_ne_zero _ (inside.trans_le M.bits_le)]
  rfl

/-! ## Operations on all bits -/

section Pointwise

variable {u : View} (y : Value M u) (inside : i < M.bits)

include inside

theorem testBit_and : (x.and y.operand).testBit i = (x.testBit i && y.testBit i) := by
  rw [and, testBit_ofBits_of_lt _ inside, Operand.pattern_operand, BitVec.getLsbD_and, testBit,
    testBit]

theorem testBit_or : (x.or y.operand).testBit i = (x.testBit i || y.testBit i) := by
  rw [or, testBit_ofBits_of_lt _ inside, Operand.pattern_operand, BitVec.getLsbD_or, testBit,
    testBit]

theorem testBit_xor : (x.xor y.operand).testBit i = (x.testBit i ^^ y.testBit i) := by
  rw [xor, testBit_ofBits_of_lt _ inside, Operand.pattern_operand, BitVec.getLsbD_xor, testBit,
    testBit]

theorem testBit_not : x.not.testBit i = !x.testBit i := by
  have small : i < 64 := inside.trans_le M.bits_le
  rw [not, testBit_ofBits_of_lt _ inside, BitVec.getLsbD_not, decide_eq_true small, Bool.true_and,
    testBit]

end Pointwise

/-! ## Masks of single bits -/

section Single

variable (inside : i < M.bits)

include inside

/-- One, shifted to the left, is the mask of a single bit. -/
theorem testBit_one_shiftLeft {j : Nat} (inside' : j < M.bits) :
    ((ofBits 1 : Value M v).shiftLeft i).testBit j = decide (j = i) := by
  have small : j < 64 := inside'.trans_le M.bits_le
  have one : M.truncate 1 = 1 := by
    rw [← BitVec.toNat_inj, Model.toNat_truncate]
    exact Nat.mod_eq_of_lt (Nat.one_lt_two_pow M.bits_pos.ne')
  rw [shiftLeft, testBit_ofBits_of_lt _ inside', Nat.mod_eq_of_lt inside, bits_ofBits, one]
  change (1#64 <<< i).getLsbD j = _
  rw [← BitVec.twoPow_eq, BitVec.getLsbD_twoPow]
  by_cases same : j = i
  · simp [same, same ▸ small]
  · simp [same, Ne.symm same]

/-- A bit is set by the union with its mask. -/
theorem withBit_true_eq :
    x.withBit i true = x.or ((ofBits 1 : Value M v).shiftLeft i).operand := by
  refine eq_iff_testBit.2 fun j inside' => ?_
  rw [testBit_withBit _ _ _ inside', testBit_or _ _ inside', testBit_one_shiftLeft inside inside']
  by_cases same : j = i <;> simp [same]

/-- A bit is cleared by the intersection with the complement of its mask. -/
theorem withBit_false_eq :
    x.withBit i false = x.and ((ofBits 1 : Value M v).shiftLeft i).not.operand := by
  refine eq_iff_testBit.2 fun j inside' => ?_
  rw [testBit_withBit _ _ _ inside', testBit_and _ _ inside', testBit_not _ inside',
    testBit_one_shiftLeft inside inside']
  by_cases same : j = i <;> simp [same]

end Single

end Value

/-! ## Assignments -/

/-- The operation that makes the bit at an index set or clear. -/
def Operation.assignBit (i : Nat) : Bool → Operation
  | true => setBit i
  | false => clearBit i

section Unsigned

variable (unsigned : v ∈ [View.address, .size]) (x : Value M v) {i : Nat} (b : Bool)

include unsigned

theorem Query.answer?_isBitSet : (isBitSet i).answer? x = some (.flag <$> x.isBitSet i) := by
  rcases List.mem_pair.1 unsigned with rfl | rfl <;> rfl

theorem Operation.perform?_assignBit (inside : i < M.bits) :
    (assignBit i b).perform? x = some (.ok (x.withBit i b)) := by
  rw [perform?_of_unsigned unsigned]
  cases b with
  | true =>
      rw [assignBit, onUnsigned, Value.setBit, Value.bit_of_lt_bits inside]
      rfl
  | false =>
      rw [assignBit, onUnsigned, Value.clearBit, Value.bit_of_lt_bits inside]
      rfl

theorem Operation.perform?_assignBit_of_bits_le (beyond : M.bits ≤ i) :
    (assignBit i b).perform? x = some (.error (.bitIndex v i M.bits)) := by
  rw [perform?_of_unsigned unsigned]
  cases b with
  | true =>
      rw [assignBit, onUnsigned, Value.setBit, Value.bit_of_bits_le beyond]
      rfl
  | false =>
      rw [assignBit, onUnsigned, Value.clearBit, Value.bit_of_bits_le beyond]
      rfl

end Unsigned

/-! ## Sequences of assignments -/

namespace Register

/-- The program that assigns bits one after another. -/
def assignments (calls : List (Nat × Bool)) : List Step :=
  calls.map fun call => .edit (.operate (.assignBit call.1 call.2))

/-- What was last assigned to the bit at an index, if anything was. -/
def lastAssigned? (calls : List (Nat × Bool)) (i : Nat) : Option Bool := calls.reverse.lookup i

/-- A call is answered if its index is one of a word, and refused otherwise. -/
def AnswersCall (M : Model) (v : View) (call : Nat × Bool)
    (answer : Except StepError Query.Answer) : Prop :=
  if call.1 < M.bits then ∃ text, answer = .ok (.text text)
  else answer = .error (.fault (.bitIndex v call.1 M.bits))

theorem lastAssigned?_cons (i : Nat) (b : Bool) (calls : List (Nat × Bool)) (j : Nat) :
    lastAssigned? ((i, b) :: calls) j =
      (lastAssigned? calls j).or (if j = i then some b else none) := by
  rw [lastAssigned?, lastAssigned?, List.reverse_cons, List.lookup_append]
  by_cases same : j = i
  · simp [same]
  · simp [same, List.lookup, beq_eq_false_iff_ne.2 same]

variable (unsigned : v ∈ [View.address, .size])

include unsigned

/-- One call assigns a bit of the word, or leaves the register as it is. -/
theorem step_assignBit (x : Value M v) (i : Nat) (b : Bool) :
    (i < M.bits ∧ ∃ text, step ⟨v, x⟩ (.edit (.operate (.assignBit i b))) =
      .ok (.text text, ⟨v, x.withBit i b⟩)) ∨
    (M.bits ≤ i ∧ step ⟨v, x⟩ (.edit (.operate (.assignBit i b))) =
      .error (.fault (.bitIndex v i M.bits))) := by
  by_cases inside : i < M.bits
  · refine .inl ⟨inside, text ⟨v, x.withBit i b⟩, ?_⟩
    rw [step, replace, Operation.perform?_assignBit unsigned x b inside]
    rfl
  · have beyond := Nat.not_lt.1 inside
    refine .inr ⟨beyond, ?_⟩
    rw [step, replace, Operation.perform?_assignBit_of_bits_le unsigned x b beyond]
    rfl

/-- After a sequence of calls each bit has the value that was last assigned to it, or its old
one. -/
theorem run_assignments (calls : List (Nat × Bool)) (x : Value M v) :
    ∃ answers y, run ⟨v, x⟩ (assignments calls) = (answers, ⟨v, y⟩) ∧
      List.Forall₂ (AnswersCall M v) calls answers ∧
      ∀ j < M.bits, y.testBit j = (lastAssigned? calls j).getD (x.testBit j) := by
  induction calls generalizing x with
  | nil => exact ⟨[], x, rfl, .nil, fun _ _ => rfl⟩
  | cons call calls ih =>
      obtain ⟨i, b⟩ := call
      rcases step_assignBit unsigned x i b with ⟨inside, text, stepped⟩ | ⟨beyond, refused⟩
      · obtain ⟨answers, y, ran, answered, bits⟩ := ih (x.withBit i b)
        have answer : AnswersCall M v (i, b) (.ok (.text text)) := by
          rw [AnswersCall, if_pos inside]
          exact ⟨text, rfl⟩
        refine ⟨_, y, run_cons_of_ok stepped ran, .cons answer answered, fun j small => ?_⟩
        rw [bits j small, x.testBit_withBit i b small, lastAssigned?_cons]
        cases lastAssigned? calls j <;> by_cases same : j = i <;> simp [same]
      · obtain ⟨answers, y, ran, answered, bits⟩ := ih x
        have answer : AnswersCall M v (i, b) (.error (.fault (.bitIndex v i M.bits))) := by
          rw [AnswersCall, if_neg (Nat.not_lt.2 beyond)]
        refine ⟨_, y, run_cons_of_error refused ran, .cons answer answered, fun j small => ?_⟩
        have other : j ≠ i := (small.trans_le beyond).ne
        rw [bits j small, lastAssigned?_cons, if_neg other, Option.or_none]

end Register

open Operation in
/-- **A word is the set of its bits.** Addresses and sizes with the same bits within a word are
equal. Whether a bit is set is answered for every index within a word, and an assignment to it
changes that bit and no other. Beyond a word the question and the assignments are refused.
Intersection, union, difference and complement look at each bit alone. A bit is set by the union
with the mask of that bit, and cleared by the intersection with its complement. So a sequence of
assignments leaves each bit as it was last assigned, and every other bit as it was. -/
theorem words_are_sets_of_bits (M : Model) {v : View} (unsigned : v ∈ [View.address, .size]) :
    (∀ x y : Value M v, x = y ↔ ∀ i < M.bits, x.testBit i = y.testBit i) ∧
    (∀ (x : Value M v) (i : Nat), i < M.bits →
      (Query.isBitSet i).answer? x = some (.ok (.flag (x.testBit i))) ∧
      (∃ z, (setBit i).perform? x = some (.ok z) ∧
        ∀ j < M.bits, z.testBit j = if j = i then true else x.testBit j) ∧
      ∃ z, (clearBit i).perform? x = some (.ok z) ∧
        ∀ j < M.bits, z.testBit j = if j = i then false else x.testBit j) ∧
    (∀ (x : Value M v) (i : Nat), M.bits ≤ i →
      (Query.isBitSet i).answer? x = some (.error (.bitIndex v i M.bits)) ∧
      (setBit i).perform? x = some (.error (.bitIndex v i M.bits)) ∧
      (clearBit i).perform? x = some (.error (.bitIndex v i M.bits))) ∧
    (∀ (x : Value M v) {u : View} (y : Value M u), ∃ both either one none : Value M v,
      (and y.operand).perform? x = some (.ok both) ∧
      (or y.operand).perform? x = some (.ok either) ∧
      (xor y.operand).perform? x = some (.ok one) ∧ not.perform? x = some (.ok none) ∧
      ∀ i < M.bits, both.testBit i = (x.testBit i && y.testBit i) ∧
        either.testBit i = (x.testBit i || y.testBit i) ∧
        one.testBit i = (x.testBit i ^^ y.testBit i) ∧ none.testBit i = !x.testBit i) ∧
    (∀ (x : Value M v) (i : Nat), i < M.bits → ∃ mask others : Value M v,
      (shiftLeft i).perform? (.ofBits 1 : Value M v) = some (.ok mask) ∧
      not.perform? mask = some (.ok others) ∧
      (setBit i).perform? x = (or mask.operand).perform? x ∧
      (clearBit i).perform? x = (and others.operand).perform? x) ∧
    ∀ (calls : List (Nat × Bool)) (x : Value M v), ∃ answers y,
      Register.run ⟨v, x⟩ (Register.assignments calls) = (answers, ⟨v, y⟩) ∧
      List.Forall₂ (Register.AnswersCall M v) calls answers ∧
      ∀ i < M.bits, y.testBit i = (Register.lastAssigned? calls i).getD (x.testBit i) := by
  have performed (op : Operation) (x : Value M v) : op.perform? x = op.onUnsigned x :=
    perform?_of_unsigned unsigned x op
  refine ⟨fun x y => Value.eq_iff_testBit, ?_, ?_, ?_, ?_, Register.run_assignments unsigned⟩
  · intro x i inside
    refine ⟨?_, ⟨_, perform?_assignBit unsigned x true inside, fun j => x.testBit_withBit i true⟩,
      ⟨_, perform?_assignBit unsigned x false inside, fun j => x.testBit_withBit i false⟩⟩
    rw [Query.answer?_isBitSet unsigned, x.isBitSet_of_lt_bits inside]
    rfl
  · intro x i beyond
    refine ⟨?_, perform?_assignBit_of_bits_le unsigned x true beyond,
      perform?_assignBit_of_bits_le unsigned x false beyond⟩
    rw [Query.answer?_isBitSet unsigned, Value.isBitSet, Value.bit_of_bits_le beyond]
    rfl
  · intro x u y
    refine ⟨_, _, _, _, performed _ x, performed _ x, performed _ x, performed _ x, ?_⟩
    intro i inside
    exact ⟨x.testBit_and y inside, x.testBit_or y inside, x.testBit_xor y inside,
      x.testBit_not inside⟩
  · intro x i inside
    refine ⟨_, _, performed _ _, performed _ _, ?_, ?_⟩
    · rw [performed (or _), onUnsigned, ← x.withBit_true_eq inside]
      exact perform?_assignBit unsigned x true inside
    · rw [performed (and _), onUnsigned, ← x.withBit_false_eq inside]
      exact perform?_assignBit unsigned x false inside

/-- The sign bit of 32 bits is set and cleared again, between calls for a bit below it and for one
that a word does not have. -/
theorem words_are_sets_of_bits_of_sign_bit :
    let x : Address .hosted32 := .ofBits 0x11
    let calls := [(31, true), (4, false), (32, true), (31, false), (8, true)]
    ∃ answers y, Register.run ⟨.address, x⟩ (Register.assignments calls) =
        (answers, ⟨.address, y⟩) ∧
      y.testBit 31 = false ∧ y.testBit 4 = false ∧ y.testBit 8 = true ∧ y.testBit 0 = true ∧
      (Operation.setBit 32).perform? x = some (.error (.bitIndex .address 32 32)) := by
  intro x calls
  obtain ⟨-, -, refused, -, -, sequences⟩ :=
    words_are_sets_of_bits .hosted32 (v := .address) (by decide)
  obtain ⟨answers, y, ran, -, bits⟩ := sequences calls x
  refine ⟨answers, y, ran, ?_, ?_, ?_, ?_, (refused x 32 (by decide)).2.1⟩
  · exact bits 31 (by decide)
  · exact bits 4 (by decide)
  · exact bits 8 (by decide)
  · exact (bits 0 (by decide)).trans (by decide)

end MachineWord
