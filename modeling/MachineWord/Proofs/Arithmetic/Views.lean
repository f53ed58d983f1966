import Mathlib
import MachineWord.Arithmetic.Shared
import MachineWord.Register.Query
import MachineWord.Value.Ints

/-!
# Arithmetic under different views

The same word is computed with under several views. What does not look at its sign gives the same
pattern under every view that has arithmetic, or is refused under all of them. Under the two
unsigned views this holds of everything (`views_share_arithmetic`). The faults differ in the name
of the view at the front of their wording and in nothing else.

Offsets divide and shift to the right as signed numbers. They do so like addresses as long as the
word and the divisor have a clear sign bit.
-/

set_option autoImplicit false

namespace MachineWord

/-- Two outcomes under two views are the same up to the view: results that are related, or faults
with the same wording behind the names of the views. -/
inductive SameOutcome (u v : View) {α β : Type} (same : α → β → Prop) :
    Except Fault α → Except Fault β → Prop where
  | result {a : α} {b : β} (results : same a b) : SameOutcome u v same (.ok a) (.ok b)
  | fault {f g : Fault} (wording : String) (left : f.message = u.name ++ wording)
      (right : g.message = v.name ++ wording) : SameOutcome u v same (.error f) (.error g)

/-- The values have the same pattern. -/
def SameBits {M : Model} {u v : View} (x : Value M u) (y : Value M v) : Prop := x.bits = y.bits

variable {M : Model} {u v : View}

/-- An operation is offered for a word under two views, with the same pattern as its result. -/
def Operation.SameUnder (op : Operation) (u v : View) (w : Word M) : Prop :=
  ∃ left right, op.perform? (w.as u) = some left ∧ op.perform? (w.as v) = some right ∧
    SameOutcome u v SameBits left right

theorem sameBits_as (w : Word M) (u v : View) : SameBits (w.as u) (w.as v) := rfl

/-- A question is offered for a word under two views, with the same answer. -/
def Query.SameUnder (q : Query) (u v : View) (w : Word M) : Prop :=
  ∃ left right, q.answer? (w.as u) = some left ∧ q.answer? (w.as v) = some right ∧
    SameOutcome u v Eq left right

/-- The questions that unsigned arithmetic answers. -/
def Query.isUnsigned : Query → Bool
  | .isRounded _ | .isAligned _ | .isWordAligned | .isBitSet _ | .effective | .numeral _ => true
  | _ => false

/-- The bit of a word that is the sign of a signed number. -/
def Model.signBit (M : Model) (pattern : BitVec 64) : Bool := pattern.getLsbD (M.bits - 1)

namespace SameOutcome

theorem bind {α β γ δ : Type} {same : α → β → Prop} {same' : γ → δ → Prop}
    {first : Except Fault α} {second : Except Fault β} {f : α → Except Fault γ}
    {g : β → Except Fault δ} (outcome : SameOutcome u v same first second)
    (next : ∀ a b, same a b → SameOutcome u v same' (f a) (g b)) :
    SameOutcome u v same' (first >>= f) (second >>= g) := by
  cases outcome with
  | result results => exact next _ _ results
  | fault wording left right => exact .fault wording left right

theorem map {α β : Type} {first second : Except Fault α}
    (outcome : SameOutcome u v Eq first second) (f : α → β) :
    SameOutcome u v Eq (f <$> first) (f <$> second) := by
  cases outcome with
  | result results => exact .result (congrArg f results)
  | fault wording left right => exact .fault wording left right

/-- A fault is the same up to the view if its wording follows the name of the view. -/
theorem refused {α β : Type} {same : α → β → Prop} {fault : View → Fault} (wording : String)
    (message : ∀ view, (fault view).message = view.name ++ wording) :
    SameOutcome u v same (.error (fault u)) (.error (fault v)) :=
  .fault wording (message u) (message v)

end SameOutcome

/-! ## Wordings -/

namespace Fault

variable (view : View)

theorem message_alignment (n : Nat) : (alignment view n).message =
    view.name ++ (": alignment " ++ toString n ++ " is not a power of two") := by
  change view.name ++ ": alignment " ++ toString n ++ " is not a power of two" = _
  rw [String.append_assoc, String.append_assoc, String.append_assoc]

theorem message_bitIndex (i bits : Nat) : (bitIndex view i bits).message =
    view.name ++ (": bit index " ++ toString i ++ " out of range for " ++ toString bits ++
      " bit words") := by
  change view.name ++ ": bit index " ++ toString i ++ " out of range for " ++ toString bits ++
    " bit words" = _
  simp only [String.append_assoc]

theorem message_radix (r : Nat) : (radix view r).message =
    view.name ++ (": unsupported radix " ++ toString r) := by
  change view.name ++ ": unsupported radix " ++ toString r = _
  rw [String.append_assoc]

end Fault

/-! ## Arguments -/

section Arguments

variable (M u v) (y : Operand)

theorem Operand.same_divisor : SameOutcome u v Eq (y.divisor M u) (y.divisor M v) := by
  rw [divisor, divisor]
  split
  · exact .refused ": division by zero" fun _ => rfl
  · exact .result rfl

theorem Operand.same_alignment : SameOutcome u v Eq (y.alignment M u) (y.alignment M v) := by
  rw [alignment, alignment]
  split
  · exact .result rfl
  · exact .refused _ fun view => Fault.message_alignment view _

theorem Value.same_bit (i : Nat) : SameOutcome u v Eq (Value.bit M u i) (Value.bit M v i) := by
  rw [bit, bit]
  split
  · exact .result rfl
  · exact .refused _ fun view => Fault.message_bitIndex view i M.bits

end Arguments

/-! ## Unsigned arithmetic -/

section Unsigned

variable {x : Value M u} {x' : Value M v} (bits : SameBits x x')

theorem sameBits_ofBits (p : BitVec 64) :
    SameBits (.ofBits p : Value M u) (.ofBits p : Value M v) := by
  rw [SameBits, Value.bits_ofBits, Value.bits_ofBits]

include bits

/-- What is computed from the pattern has the same pattern under both views. -/
theorem same_pattern (f : BitVec 64 → BitVec 64) :
    SameOutcome u v SameBits (.ok (.ofBits (f x.bits) : Value M u))
      (.ok (.ofBits (f x'.bits) : Value M v)) := by
  have equal : x.bits = x'.bits := bits
  rw [equal]
  exact .result (sameBits_ofBits _)

/-- The same for a computation that needs an argument which may be refused. -/
theorem same_bind_pattern {α : Type} {first second : Except Fault α}
    (argument : SameOutcome u v Eq first second) (f : BitVec 64 → α → BitVec 64) :
    SameOutcome u v SameBits
      (first >>= fun a => pure (.ofBits (f x.bits a) : Value M u))
      (second >>= fun a => pure (.ofBits (f x'.bits a) : Value M v)) :=
  argument.bind fun a _ equal => equal ▸ same_pattern bits (f · a)

namespace Value

variable (y : Operand)

theorem same_mod : SameOutcome u v SameBits (x.mod y) (x'.mod y) :=
  same_bind_pattern bits (y.same_divisor M u v) (· % ·)

theorem isZero_of_sameBits : x.isZero = x'.isZero := congrArg (· == 0) bits

theorem same_roundUp : SameOutcome u v SameBits (x.roundUp y) (x'.roundUp y) := by
  refine (same_mod bits y).bind fun r r' remainders => ?_
  have equal : r.bits = r'.bits := remainders
  rw [isZero_of_sameBits remainders, equal]
  split
  · exact .result bits
  · exact same_pattern bits (· + (y.wordPattern M - r'.bits))

theorem same_roundDown : SameOutcome u v SameBits (x.roundDown y) (x'.roundDown y) := by
  refine (same_mod bits y).bind fun r r' remainders => ?_
  have equal : r.bits = r'.bits := remainders
  rw [equal]
  exact same_pattern bits (· - r'.bits)

theorem same_align : SameOutcome u v SameBits (x.align y) (x'.align y) :=
  same_bind_pattern bits (y.same_alignment M u v) fun p a => (p + (a - 1)) &&& ~~~(a - 1)

theorem same_isRounded : SameOutcome u v Eq (x.isRounded y) (x'.isRounded y) :=
  (same_mod bits y).bind fun _ _ remainders => .result (isZero_of_sameBits remainders)

theorem same_isAligned : SameOutcome u v Eq (x.isAligned y) (x'.isAligned y) := by
  refine (y.same_alignment M u v).bind fun a a' equal => ?_
  have patterns : x.bits = x'.bits := bits
  rw [equal, patterns]
  exact .result rfl

theorem same_isBitSet (i : Nat) : SameOutcome u v Eq (x.isBitSet i) (x'.isBitSet i) := by
  refine (same_bit M u v i).bind fun a a' equal => ?_
  have patterns : x.bits = x'.bits := bits
  rw [equal, patterns]
  exact .result rfl

theorem effectiveBits_of_sameBits : x.effectiveBits = x'.effectiveBits := by
  have tests : x.testBit = x'.testBit := congrArg BitVec.getLsbD bits
  rw [effectiveBits, effectiveBits, leadingZeros, leadingZeros, tests]

theorem same_numeral (radix : Nat) :
    SameOutcome u v Eq (x.numeral radix) (x'.numeral radix) := by
  rw [numeral, numeral]
  split
  · exact .result (congrArg (fun p => Numeral.render radix p.toNat) bits)
  · exact .refused _ fun view => Fault.message_radix view radix

end Value

/-- Unsigned arithmetic has the same results under all views, and the same refusals. -/
theorem Operation.same_onUnsigned {op : Operation} (unsigned : op ≠ .neg) :
    ∃ left right, op.onUnsigned x = some left ∧ op.onUnsigned x' = some right ∧
      SameOutcome u v SameBits left right := by
  cases op with
  | add y => exact ⟨_, _, rfl, rfl, same_pattern bits (· + y.pattern M)⟩
  | sub y => exact ⟨_, _, rfl, rfl, same_pattern bits (· - y.pattern M)⟩
  | mul y => exact ⟨_, _, rfl, rfl, same_pattern bits (· * y.pattern M)⟩
  | div y => exact ⟨_, _, rfl, rfl, same_bind_pattern bits (y.same_divisor M u v) (· / ·)⟩
  | mod y => exact ⟨_, _, rfl, rfl, Value.same_mod bits y⟩
  | neg => contradiction
  | roundUp y => exact ⟨_, _, rfl, rfl, Value.same_roundUp bits y⟩
  | roundDown y => exact ⟨_, _, rfl, rfl, Value.same_roundDown bits y⟩
  | align y => exact ⟨_, _, rfl, rfl, Value.same_align bits y⟩
  | alignWord => exact ⟨_, _, rfl, rfl, Value.same_align bits (.wordBytes M)⟩
  | and y => exact ⟨_, _, rfl, rfl, same_pattern bits (· &&& y.pattern M)⟩
  | or y => exact ⟨_, _, rfl, rfl, same_pattern bits (· ||| y.pattern M)⟩
  | xor y => exact ⟨_, _, rfl, rfl, same_pattern bits (· ^^^ y.pattern M)⟩
  | not => exact ⟨_, _, rfl, rfl, same_pattern bits (~~~·)⟩
  | shiftLeft n => exact ⟨_, _, rfl, rfl, same_pattern bits (· <<< (n % M.bits))⟩
  | shiftRight n => exact ⟨_, _, rfl, rfl, same_pattern bits (· >>> (n % M.bits))⟩
  | unsignedShiftRight n => exact ⟨_, _, rfl, rfl, same_pattern bits (· >>> (n % M.bits))⟩
  | setBit i => exact ⟨_, _, rfl, rfl, same_bind_pattern bits (Value.same_bit M u v i) (· ||| ·)⟩
  | clearBit i =>
      exact ⟨_, _, rfl, rfl,
        same_bind_pattern bits (Value.same_bit M u v i) fun p bit => p &&& ~~~bit⟩

/-- Questions of unsigned arithmetic have the same answers under all views. -/
theorem Query.same_onUnsigned {q : Query} (unsigned : q.isUnsigned = true) :
    ∃ left right, q.onUnsigned x = some left ∧ q.onUnsigned x' = some right ∧
      SameOutcome u v Eq left right := by
  cases q with
  | isRounded y => exact ⟨_, _, rfl, rfl, (Value.same_isRounded bits y).map Query.Answer.flag⟩
  | isAligned y => exact ⟨_, _, rfl, rfl, (Value.same_isAligned bits y).map Query.Answer.flag⟩
  | isWordAligned =>
      exact ⟨_, _, rfl, rfl, (Value.same_isAligned bits (.wordBytes M)).map Query.Answer.flag⟩
  | isBitSet i => exact ⟨_, _, rfl, rfl, (Value.same_isBitSet bits i).map Query.Answer.flag⟩
  | effective =>
      refine ⟨_, _, rfl, rfl, .result ?_⟩
      rw [Value.effectiveWidth?, Value.effectiveWidth?, Value.effectiveBits_of_sameBits bits]
  | numeral radix =>
      exact ⟨_, _, rfl, rfl, (Value.same_numeral bits radix).map Query.Answer.text⟩
  | _ => contradiction

end Unsigned

/-! ## Words with a clear sign bit -/

namespace Model

variable (M)

theorem bits_sub_one_lt : M.bits - 1 < M.bits := Nat.sub_one_lt_of_lt M.bits_pos

theorem bits_sub_one_lt_long : M.bits - 1 < 64 := M.bits_sub_one_lt.trans_le M.bits_le

variable {M}

theorem signBit_truncate (p : BitVec 64) : M.signBit (M.truncate p) = M.signBit p := by
  rw [signBit, signBit, truncate_eq_setWidth, BitVec.getLsbD_setWidth, BitVec.getLsbD_setWidth,
    decide_eq_true M.bits_sub_one_lt, decide_eq_true M.bits_sub_one_lt_long, Bool.true_and,
    Bool.true_and]

section Clear

variable {p : BitVec 64} (clear : M.signBit (M.truncate p) = false)

include clear

/-- A word with a clear sign bit is extended by zeros. -/
theorem toBitVec_signExtend_of_clear : (M.signExtend p).toBitVec = M.truncate p := by
  have positive : (p.setWidth M.bits).msb = false := by
    rw [BitVec.msb_eq_getLsbD_last, BitVec.getLsbD_setWidth, decide_eq_true M.bits_sub_one_lt,
      Bool.true_and, ← clear, signBit_truncate, signBit]
  rw [signExtend, Int64.toBitVec_ofBitVec, BitVec.signExtend_eq_setWidth_of_msb_false positive,
    truncate_eq_setWidth]

/-- A word with a clear sign bit is not negative as a long either. -/
theorem msb_truncate_of_clear : (M.truncate p).msb = false := by
  rw [BitVec.msb_eq_getLsbD_last]
  by_cases whole : M.bits = 64
  · rwa [signBit, whole] at clear
  · have beyond : ¬ 63 < M.bits := by
      have bound := M.bits_le
      omega
    rw [truncate_eq_setWidth, BitVec.getLsbD_setWidth, BitVec.getLsbD_setWidth,
      decide_eq_false beyond, Bool.false_and, Bool.and_false]

end Clear

end Model

section Clear

variable {x : Offset M} {y : Operand} (clear : M.signBit x.bits = false)

/-- A signed divisor with a clear sign bit is the unsigned one. -/
theorem Operand.signedDivisor_of_clear (clear' : M.signBit (y.wordPattern M) = false) :
    y.signedDivisor M v = Int64.ofBitVec <$> y.divisor M v := by
  have divisor : (y.signed M).toBitVec = y.wordPattern M :=
    Model.toBitVec_signExtend_of_clear clear'
  have zero : y.signed M = 0 ↔ y.wordPattern M = 0 := by
    rw [← Int64.toBitVec_inj, divisor]
    rfl
  rw [signedDivisor, Operand.divisor]
  by_cases none : y.wordPattern M = 0
  · rw [if_pos none, if_pos (zero.2 none)]
    rfl
  · rw [if_neg none, if_neg (mt zero.1 none)]
    exact congrArg Except.ok (Int64.toBitVec_inj.1 divisor)

theorem Operand.msb_divisor_of_clear (clear' : M.signBit (y.wordPattern M) = false)
    {d : BitVec 64} (accepted : y.divisor M v = .ok d) : d.msb = false := by
  rw [divisor] at accepted
  split at accepted
  next => contradiction
  next =>
      cases accepted
      exact Model.msb_truncate_of_clear clear'

namespace Offset

theorem shiftRight_eq (x : Offset M) (n : Nat) :
    x.shiftRight n = .ofBits (x.toLong.toBitVec.sshiftRight (n % M.bits)) := by
  apply congrArg Value.ofBits
  rw [Int64.toBitVec_shiftRight, BitVec.sshiftRight', toNat_distance (mod_bits_lt n)]

include clear

theorem toBitVec_toLong_of_clear : x.toLong.toBitVec = x.bits := by
  rw [← x.truncate_bits] at clear
  exact (Model.toBitVec_signExtend_of_clear clear).trans x.truncate_bits

theorem msb_bits_of_clear : x.bits.msb = false := by
  rw [← x.truncate_bits] at clear ⊢
  exact Model.msb_truncate_of_clear clear

theorem shiftRight_of_clear (n : Nat) : x.shiftRight n = Value.shiftRight x n := by
  rw [shiftRight_eq, Value.shiftRight, toBitVec_toLong_of_clear clear,
    BitVec.sshiftRight_eq_of_msb_false (msb_bits_of_clear clear)]

variable (clear' : M.signBit (y.wordPattern M) = false)

include clear'

theorem div_of_clear : x.div y = Value.div x y := by
  rw [div, Value.div, Operand.signedDivisor_of_clear clear']
  cases accepted : y.divisor M .offset with
  | ok d =>
      have quotient : (x.toLong / Int64.ofBitVec d).toBitVec = x.bits / d := by
        rw [Int64.toBitVec_div, toBitVec_toLong_of_clear clear, Int64.toBitVec_ofBitVec,
          BitVec.sdiv_eq, msb_bits_of_clear clear, Operand.msb_divisor_of_clear clear' accepted]
        rfl
      exact congrArg (Except.ok ∘ Value.ofBits) quotient
  | error fault => rfl

theorem mod_of_clear : x.mod y = Value.mod x y := by
  rw [mod, Value.mod, Operand.signedDivisor_of_clear clear']
  cases accepted : y.divisor M .offset with
  | ok d =>
      have remainder : (x.toLong % Int64.ofBitVec d).toBitVec = x.bits % d := by
        rw [Int64.toBitVec_mod, toBitVec_toLong_of_clear clear, Int64.toBitVec_ofBitVec,
          BitVec.srem_eq, msb_bits_of_clear clear, Operand.msb_divisor_of_clear clear' accepted]
      exact congrArg (Except.ok ∘ Value.ofBits) remainder
  | error fault => rfl

end Offset

end Clear

/-! ## All views -/

section Views

variable {w : Word M}

theorem Operation.sameUnder_of_isShared {op : Operation} (shared : op.isShared = true)
    (left : u.isArithmetic = true) (right : v.isArithmetic = true) : op.SameUnder u v w := by
  have unsigned : op ≠ .neg := by
    rintro rfl
    contradiction
  rw [SameUnder, perform?_of_isShared shared left, perform?_of_isShared shared right]
  exact same_onUnsigned (sameBits_as w u v) unsigned

theorem Query.answer?_isAligned (arithmetic : v.isArithmetic = true) (x : Value M v)
    (y : Operand) : (isAligned y).answer? x = some (.flag <$> x.isAligned y) := by
  cases v with
  | address => rfl
  | size => rfl
  | offset =>
      exact congrArg (fun aligned => some (Answer.flag <$> aligned)) (Offset.isAligned_eq x y)
  | word => contradiction
  | reference => contradiction

theorem Query.isAligned_sameUnder (left : u.isArithmetic = true) (right : v.isArithmetic = true)
    (y : Operand) : (isAligned y).SameUnder u v w :=
  ⟨_, _, answer?_isAligned left (w.as u) y, answer?_isAligned right (w.as v) y,
    (Value.same_isAligned (sameBits_as w u v) y).map Answer.flag⟩

theorem Query.sameUnder_of_isUnsigned {q : Query} (unsigned : q.isUnsigned = true) :
    q.SameUnder .address .size w := by
  have offered (x : Address M) (x' : Size M) :
      q.answer? x = q.onUnsigned x ∧ q.answer? x' = q.onUnsigned x' := by
    cases q with
    | equalsInt n => contradiction
    | toIndex => contradiction
    | _ => exact ⟨rfl, rfl⟩
  obtain ⟨address, size⟩ := offered (w.as .address) (w.as .size)
  rw [SameUnder, address, size]
  exact same_onUnsigned (sameBits_as w .address .size) unsigned

end Views

/-- **The views share their arithmetic.** The operations that do not look at a sign give the same
pattern for a word whichever view it has among addresses, sizes and offsets, and a word is aligned
under all of them or under none. Addresses and sizes have the same results and the same refusals
in everything that unsigned arithmetic does and answers. An offset is divided like an address if
the sign bits of the word and of the divisor are clear, and is shifted to the right like an
address if that of the word is. -/
theorem views_share_arithmetic (M : Model) (w : Word M) :
    (∀ u v : View, u.isArithmetic = true → v.isArithmetic = true →
      (∀ op : Operation, op.isShared = true → op.SameUnder u v w) ∧
      ∀ y : Operand, (Query.isAligned y).SameUnder u v w) ∧
    (∀ op : Operation, op ≠ .neg → op.SameUnder .address .size w) ∧
    (∀ q : Query, q.isUnsigned = true → q.SameUnder .address .size w) ∧
    (M.signBit w.bits = false →
      (∀ y : Operand, M.signBit (y.wordPattern M) = false →
        (Operation.div y).SameUnder .address .offset w ∧
        (Operation.mod y).SameUnder .address .offset w) ∧
      ∀ n : Nat, (Operation.shiftRight n).SameUnder .address .offset w) := by
  refine ⟨?_, ?_, ?_, ?_⟩
  · intro u v left right
    exact ⟨fun op shared => Operation.sameUnder_of_isShared shared left right,
      Query.isAligned_sameUnder left right⟩
  · intro op unsigned
    exact Operation.same_onUnsigned (sameBits_as w .address .size) unsigned
  · intro q unsigned
    exact Query.sameUnder_of_isUnsigned unsigned
  · intro clear
    -- The offset is computed with as if it were an address, and this one has the same pattern.
    have asAddress {op : Operation} (unsigned : op ≠ .neg)
        (equal : op.onOffset (w.as .offset) = op.onUnsigned (w.as .offset)) :
        op.SameUnder .address .offset w := by
      change ∃ left right, op.onUnsigned (w.as .address) = some left ∧
        op.onOffset (w.as .offset) = some right ∧ _
      rw [equal]
      exact Operation.same_onUnsigned (sameBits_as w .address .offset) unsigned
    refine ⟨fun y clear' => ⟨?_, ?_⟩, fun n => ?_⟩
    · exact asAddress (by simp) (congrArg some (Offset.div_of_clear clear clear'))
    · exact asAddress (by simp) (congrArg some (Offset.mod_of_clear clear clear'))
    · exact asAddress (by simp) (congrArg (some ∘ Except.ok) (Offset.shiftRight_of_clear clear n))

/-- The largest offset of 32 bits. The long has no bit within a word, so all refuse to divide
by it. -/
theorem views_share_arithmetic_of_largest :
    let w : Word .hosted32 := .ofBits 0x7fffffff
    (Operation.align (.int 8)).SameUnder .size .offset w ∧
    (Query.isAligned (.int (-8))).SameUnder .address .offset w ∧
    (Operation.roundUp (.int 10)).SameUnder .address .size w ∧
    (Query.numeral 16).SameUnder .address .size w ∧
    (Operation.div (.long 0x100000000)).SameUnder .address .offset w ∧
    (Operation.mod (.int 10)).SameUnder .address .offset w ∧
    (Operation.shiftRight 3).SameUnder .address .offset w := by
  intro w
  obtain ⟨shared, operations, questions, positive⟩ := views_share_arithmetic .hosted32 w
  have clear : Model.hosted32.signBit w.bits = false := by decide
  obtain ⟨divided, shifted⟩ := positive clear
  exact ⟨(shared .size .offset rfl rfl).1 (.align (.int 8)) rfl,
    (shared .address .offset rfl rfl).2 (.int (-8)), operations (.roundUp (.int 10)) (by decide),
    questions (.numeral 16) rfl, (divided (.long 0x100000000) (by decide)).1,
    (divided (.int 10) (by decide)).2, shifted 3⟩

end MachineWord
