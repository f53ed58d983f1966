import Mathlib
import MachineWord.Address.Parse
import MachineWord.Proofs.Mode.Values
import MachineWord.Register.Basic
import MachineWord.Value.Stream

/-!
# Registers in other modes

A program for a register has the same answers in every mode, and leaves values with the same
pattern (`Register.run_inMode`). The same holds for values that are read from digits or from
bytes.
-/

set_option autoImplicit false

namespace MachineWord

variable {s : WordSize} {m : Mode} {v : View} (n : Mode)

/-! ## Factories -/

theorem Seed.value_inMode (seed : Seed) :
    (seed.value : Value ⟨s, n⟩ v) = (seed.value : Value ⟨s, m⟩ v).inMode n := by
  cases seed <;> exact (Value.inMode_ofBits n _).symm

namespace Address

variable (radix : Nat)

theorem appendDigit_inMode (x : Address ⟨s, m⟩) (digit : Nat) :
    appendDigit radix (x.inMode n) digit = (appendDigit radix x digit).inMode n := by
  rw [appendDigit, appendDigit, Value.mul_inMode, Value.add_inMode]

theorem parseDigits_inMode (chars : List Char) (position : Nat) (x : Address ⟨s, m⟩) :
    parseDigits radix chars position (x.inMode n) =
      (parseDigits radix chars position x).map (Value.inMode n) := by
  induction chars generalizing position x with
  | nil => rfl
  | cons c rest ih =>
      rw [parseDigits, parseDigits]
      cases Numeral.digitValue? radix c with
      | some digit =>
          change parseDigits radix rest _ (appendDigit radix (x.inMode n) digit) =
            (parseDigits radix rest _ (appendDigit radix x digit)).map (Value.inMode n)
          rw [appendDigit_inMode, ih]
      | none => rfl

theorem parse_inMode (text : String) :
    (parse radix text : Except ParseError (Address ⟨s, n⟩)) =
      (parse radix text : Except ParseError (Address ⟨s, m⟩)).map (Value.inMode n) := by
  have zero : (.zero : Address ⟨s, n⟩) = (.zero : Address ⟨s, m⟩).inMode n :=
    (Value.inMode_ofBits n 0).symm
  rw [parse, parse, zero, parseDigits_inMode]
  split <;> rfl

end Address

namespace Value

theorem read?_inMode (order : ByteOrder) (stream : List UInt8) :
    (read? order stream : Option (Value ⟨s, n⟩ v × List UInt8)) =
      (read? order stream : Option (Value ⟨s, m⟩ v × List UInt8)).map
        fun (x, rest) => (x.inMode n, rest) := by
  have same (bytes : List UInt8) :
      (ofBytes order bytes : Value ⟨s, n⟩ v) = (ofBytes order bytes : Value ⟨s, m⟩ v).inMode n :=
    (inMode_ofBits n _).symm
  rw [read?, read?, same]
  change (if s.bytes ≤ stream.length then _ else _) =
    Option.map _ (if s.bytes ≤ stream.length then _ else _)
  split <;> rfl

end Value

/-! ## Questions -/

namespace Query

variable (q : Query)

theorem description_inMode (x : Value ⟨s, m⟩ v) : description (x.inMode n) = description x := by
  simp only [description, Value.isAllOnes, Value.hex, Value.lowestSetBit?, Value.highestSetBit?,
    Value.trailingZeros, toString, Value.bits_inMode, Value.toInt_inMode, Value.toLong_inMode,
    Value.isZero_inMode, Value.paddedHex_inMode, Value.testBit_inMode,
    Value.leadingZeros_inMode, Value.text_inMode]
  rfl

theorem onAny_inMode (x : Value ⟨s, m⟩ v) : q.onAny (x.inMode n) = q.onAny x := by
  cases q with
  | describe => rw [onAny, onAny, description_inMode]
  | bits => rw [onAny, onAny, Value.bits_inMode]
  | toLong => rw [onAny, onAny, Value.toLong_inMode]
  | toInt => rw [onAny, onAny, Value.toInt_inMode]
  | padded fill => rw [onAny, onAny, Value.paddedHex_inMode]
  | compare pattern => rw [onAny, onAny, ← Value.inMode_ofBits n, Value.compare_inMode]
  | equals pattern => rw [onAny, onAny, ← Value.inMode_ofBits n, Value.beq_inMode]
  | _ => rfl

theorem onUnsigned_inMode (x : Value ⟨s, m⟩ v) : q.onUnsigned (x.inMode n) = q.onUnsigned x := by
  cases q with
  | isRounded y => rw [onUnsigned, onUnsigned, Value.isRounded_inMode]
  | isAligned y => rw [onUnsigned, onUnsigned, Value.isAligned_inMode]
  | isWordAligned =>
      have aligned : (x.inMode n).isWordAligned = x.isWordAligned := x.isAligned_inMode n _
      rw [onUnsigned, onUnsigned, aligned]
  | isBitSet i => rw [onUnsigned, onUnsigned, Value.isBitSet_inMode]
  | effective =>
      rw [onUnsigned, onUnsigned, Value.effectiveWidth?, Value.effectiveWidth?,
        Value.effectiveBits_inMode]
  | numeral radix =>
      rw [onUnsigned, onUnsigned, Value.numeral, Value.numeral, Value.bits_inMode]
  | _ => simp only [onUnsigned, onAny_inMode]

/-- A question about a value has the same answer in every mode, and fails for the same
cause. -/
theorem answer?_inMode (x : Value ⟨s, m⟩ v) : q.answer? (x.inMode n) = q.answer? x := by
  cases v with
  | word => exact q.onAny_inMode n x
  | address =>
      cases q with
      | equalsInt k =>
          rw [answer?, answer?, Address.equalsInt, Address.equalsInt, Value.ofInt, Value.ofInt,
            ← Value.inMode_ofBits n, Value.beq_inMode]
      | _ => simp only [answer?, onUnsigned_inMode]
  | offset =>
      cases q with
      | isNegative => rw [answer?, answer?, Offset.isNegative_inMode]
      | isAligned y => rw [answer?, answer?, Offset.isAligned_inMode]
      | _ => simp only [answer?, onAny_inMode]
  | size =>
      cases q with
      | toIndex => rw [answer?, answer?, Size.toIndex, Size.toIndex, Value.bits_inMode]
      | _ => simp only [answer?, onUnsigned_inMode]
  | reference =>
      cases q with
      | isNull => rw [answer?, answer?, Reference.isNull, Reference.isNull, Value.isZero_inMode]
      | _ => simp only [answer?, onAny_inMode]

theorem ask_inMode (x : Value ⟨s, m⟩ v) : q.ask (x.inMode n) = q.ask x := by
  rw [ask, answer?_inMode, ask]

end Query

/-! ## Registers -/

namespace Register

/-- The register whose value is kept in another mode. -/
def inMode (r : Register ⟨s, m⟩) : Register ⟨s, n⟩ := ⟨r.view, r.value.inMode n⟩

variable (r : Register ⟨s, m⟩)

theorem start_inMode (view : View) (seed : Seed) :
    (start view seed : Register ⟨s, n⟩) = (start view seed : Register ⟨s, m⟩).inMode n :=
  congrArg (Register.mk view) (seed.value_inMode n)

theorem replace_inMode (e : Edit) : (r.inMode n).replace e = (r.replace e).map (inMode n) := by
  cases e with
  | set view seed => exact congrArg Except.ok (start_inMode n view seed)
  | view view => exact congrArg (Except.ok ∘ Register.mk view) (r.value.inMode_as n view)
  | rewrap =>
      change Except.ok (Register.mk r.view (((r.value.inMode n).as .word).as r.view)) = _
      rw [Value.inMode_as, Value.inMode_as]
      rfl
  | operate op =>
      have performed : op.perform? (r.inMode n).value =
          (op.perform? r.value).map (Except.map (Value.inMode n)) :=
        op.perform?_inMode n r.value
      rw [replace, replace, performed]
      rcases op.perform? r.value with _ | _ | _ <;> rfl

/-- A step has the same answer in every mode and leaves the same pattern. -/
theorem step_inMode (action : Step) :
    (r.inMode n).step action =
      (r.step action).map fun (answer, next) => (answer, next.inMode n) := by
  cases action with
  | query q =>
      change (q.ask (r.value.inMode n)).map (·, r.inMode n) = _
      rw [q.ask_inMode, step]
      cases q.ask r.value <;> rfl
  | edit e =>
      rw [step, step, replace_inMode]
      cases r.replace e with
      | ok replaced =>
          exact congrArg (fun text => Except.ok (Query.Answer.text text, replaced.inMode n))
            (replaced.value.text_inMode n)
      | error cause => rfl

/-- A program has the same answers in every mode and leaves the same pattern. -/
theorem run_inMode (program : List Step) :
    (r.inMode n).run program = ((r.run program).1, (r.run program).2.inMode n) := by
  induction program generalizing r with
  | nil => rfl
  | cons action rest ih =>
      rw [run, run, step_inMode]
      cases r.step action with
      | ok result =>
          obtain ⟨answer, next⟩ := result
          change (Except.ok answer :: ((next.inMode n).run rest).1,
            ((next.inMode n).run rest).2) = _
          rw [ih]
      | error cause =>
          change (Except.error cause :: ((r.inMode n).run rest).1, ((r.inMode n).run rest).2) = _
          rw [ih]

theorem run_append_snd (first second : List Step) :
    (r.run (first ++ second)).2 = ((r.run first).2.run second).2 := by
  induction first generalizing r with
  | nil => rfl
  | cons action rest ih =>
      rw [List.cons_append, run, run]
      cases r.step action with
      | ok result => exact ih result.2
      | error cause => exact ih r

/-- A step that fails leaves the register as it is. -/
theorem run_append_of_error {program : List Step} {action : Step} {cause : StepError}
    (failed : (r.run program).2.step action = .error cause) :
    (r.run (program ++ [action])).2 = (r.run program).2 := by
  rw [run_append_snd, run, failed]
  rfl

end Register

end MachineWord
