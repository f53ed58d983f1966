import Mathlib
import MachineWord.Address.Parse
import MachineWord.Register.StraightLine

/-!
# Narrow words as halves of wide ones

Words of 32 bits are the low halves of words of 64 bits, in whatever way the two are kept. A
straight-line program does not fail under either size, and each of its words of 32 bits is the low
half of the one of 64 bits. The same is true of the address that a text is read as, and a text
that is refused is refused with the same error (`narrow_words_are_low_halves`).

The models need not be those two. What carries the proofs is that in any two models the low halves
of the words are the same (`Step.word_low`, `Program.run_low`).
-/

set_option autoImplicit false

namespace MachineWord

variable {M M' : Model} {u v : View}

/-- The low half of a pattern. -/
def Value.low (x : Value M v) : BitVec 32 := x.bits.setWidth 32

theorem Model.low_truncate (M : Model) (p : BitVec 64) : LowBits 32 (M.truncate p) p :=
  (M.lowBits_truncate p).of_le M.le_bits

namespace Value

theorem toNat_low (x : Value M v) : x.low.toNat = x.bits.toNat % 2 ^ 32 :=
  BitVec.toNat_setWidth 32 x.bits

/-- A word of 32 bits is its own low half. -/
theorem toNat_low_of_narrow {m : Mode} (x : Value ⟨.w32, m⟩ v) : x.low.toNat = x.bits.toNat :=
  x.toNat_low.trans (Nat.mod_eq_of_lt x.toNat_bits_lt)

theorem low_ofBits (p : BitVec 64) : (ofBits p : Value M v).low = p.setWidth 32 :=
  (lowBits_ofBits p).of_le M.le_bits

theorem low_ofBits_congr {p p' : BitVec 64} (same : LowBits 32 p p') :
    (ofBits p : Value M u).low = (ofBits p' : Value M' v).low := by
  rw [low_ofBits, low_ofBits]
  exact same

end Value

theorem Seed.low_value (seed : Seed) :
    (seed.value : Value M u).low = (seed.value : Value M' v).low := by
  cases seed <;> exact Value.low_ofBits_congr (LowBits.refl _)

namespace Operand

variable (M M')

theorem lowBits_pattern (y : Operand) : LowBits 32 (y.pattern M) (y.pattern M') := by
  cases y with
  | word view p => exact (M.low_truncate p).trans (M'.low_truncate p).symm
  | _ => exact LowBits.refl _

theorem lowBits_wordPattern (y : Operand) : LowBits 32 (y.wordPattern M) (y.wordPattern M') :=
  (M.low_truncate _).trans ((y.lowBits_pattern M M').trans (M'.low_truncate _).symm)

end Operand

namespace StraightLine

variable {n : Nat} {words : Fin n → Word M} {words' : Fin n → Word M'}
  (same : ∀ i, (words i).low = (words' i).low)

include same

theorem Argument.lowBits_operand (y : Argument n) :
    LowBits 32 ((y.operand words).pattern M) ((y.operand words').pattern M') := by
  cases y with
  | constant y => exact y.lowBits_pattern M M'
  | result i view =>
      rw [operand, operand, Operand.pattern_operand, Operand.pattern_operand]
      exact same i

/-- The low half of what an instruction computes depends on those of its arguments only. -/
theorem Instruction.lowBits_pattern (i : Instruction v n) {p p' : BitVec 64}
    (receivers : LowBits 32 p p') : LowBits 32 (i.pattern words p) (i.pattern words' p') := by
  have bound : 32 ≤ 64 := by decide
  have one : LowBits 32 1 1 := LowBits.refl 1
  cases i with
  | add y => exact receivers.add (y.lowBits_operand same) bound
  | sub y => exact receivers.sub (y.lowBits_operand same) bound
  | mul y => exact receivers.mul (y.lowBits_operand same) bound
  | neg signed => exact receivers.neg bound
  | align y alignment =>
      exact .align bound receivers ((y.lowBits_wordPattern M M').sub one bound)
  | and y => exact receivers.and (y.lowBits_operand same)
  | or y => exact receivers.or (y.lowBits_operand same)
  | xor y => exact receivers.xor (y.lowBits_operand same)
  | not => exact receivers.not bound
  | shiftLeft distance => exact receivers.shiftLeft bound distance
  | setBit index unsigned => exact receivers.or (.refl _)
  | clearBit index unsigned => exact receivers.and (.refl _)

/-- A step makes words with the same low half in any two models, and does not fail. -/
theorem Step.word_low (step : Step n) :
    ∃ word word', step.word words = .ok word ∧ step.word words' = .ok word' ∧
      word.low = word'.low := by
  cases step with
  | make seed => exact ⟨_, _, rfl, rfl, seed.low_value⟩
  | operate view arithmetic receiver instruction =>
      exact ⟨_, _, word_operate words view arithmetic receiver instruction,
        word_operate words' view arithmetic receiver instruction,
        Value.low_ofBits_congr (instruction.lowBits_pattern same (same receiver))⟩

/-- A program makes words with the same low halves in any two models, and does not fail. -/
theorem Program.run_low (p : Program n) :
    ∃ made made', p.run words = .ok made ∧ p.run words' = .ok made' ∧
      made.map Value.low = made'.map Value.low := by
  induction p with
  | done => exact ⟨[], [], rfl, rfl, rfl⟩
  | @step n first rest ih =>
      obtain ⟨word, word', ran, ran', low⟩ := first.word_low same
      have extended : ∀ i, ((Fin.snoc words word : Fin (n + 1) → Word M) i).low =
          ((Fin.snoc words' word' : Fin (n + 1) → Word M') i).low := by
        refine Fin.lastCases ?_ fun i => ?_
        · rw [Fin.snoc_last, Fin.snoc_last, low]
        · rw [Fin.snoc_castSucc, Fin.snoc_castSucc, same i]
      obtain ⟨later, later', made, made', lows⟩ := ih extended
      refine ⟨_, _, run_step words ran made, run_step words' ran' made', ?_⟩
      rw [List.map_cons, List.map_cons, low, lows]

end StraightLine

/-! ## Reading -/

namespace Address

variable (radix : Nat)

theorem low_appendDigit {x : Address M} {x' : Address M'} (same : x.low = x'.low) (digit : Nat) :
    (x.appendDigit radix digit).low = (x'.appendDigit radix digit).low := by
  have bound : 32 ≤ 64 := by decide
  have operand (k : Nat) := Operand.lowBits_pattern M M' (.unsignedInt (UInt32.ofNat k))
  have product : (x.mul (.unsignedInt (UInt32.ofNat radix))).low =
      (x'.mul (.unsignedInt (UInt32.ofNat radix))).low :=
    Value.low_ofBits_congr (LowBits.mul same (operand radix) bound)
  exact Value.low_ofBits_congr (LowBits.add product (operand digit) bound)

/-- Digits are read with the same low half in any two models, and with the same errors. -/
theorem parseDigits_low (digits : List Char) (position : Nat) {x : Address M} {x' : Address M'}
    (same : x.low = x'.low) :
    (parseDigits radix digits position x).map Value.low =
      (parseDigits radix digits position x').map Value.low := by
  induction digits generalizing position x x' with
  | nil => exact congrArg Except.ok same
  | cons c rest ih =>
      rw [parseDigits, parseDigits]
      cases Numeral.digitValue? radix c with
      | none => rfl
      | some digit => exact ih _ (low_appendDigit radix same digit)

theorem parse_low (text : String) :
    (parse radix text : Except _ (Address M)).map Value.low =
      (parse radix text : Except _ (Address M')).map Value.low := by
  rw [parse, parse]
  split
  · exact parseDigits_low radix text.toList 0 (Value.low_ofBits_congr (LowBits.refl _))
  · rfl

end Address

open StraightLine

/-- **Words of 32 bits are the low halves of words of 64 bits.** A straight-line program runs to
its end under both sizes, whichever way the words are kept, and each word of 32 bits is the one
of 64 bits modulo 2 ^ 32. Every text is read, in every radix, as the address of 64 bits modulo
2 ^ 32 or refused with the same error. -/
theorem narrow_words_are_low_halves (m m' : Mode) :
    (∀ p : Program 0, ∃ (wide : List (Word ⟨.w64, m⟩)) (narrow : List (Word ⟨.w32, m'⟩)),
      p.run Fin.elim0 = .ok wide ∧ p.run Fin.elim0 = .ok narrow ∧
      narrow.map (·.bits.toNat) = wide.map (·.bits.toNat % 2 ^ 32)) ∧
    (∀ (radix : Nat) (text : String),
      (Address.parse radix text : Except _ (Address ⟨.w32, m'⟩)).map (·.bits.toNat) =
        (Address.parse radix text : Except _ (Address ⟨.w64, m⟩)).map (·.bits.toNat % 2 ^ 32)) := by
  have narrowed (v : View) :
      (fun x : Value ⟨.w32, m'⟩ v => x.bits.toNat) = BitVec.toNat ∘ Value.low :=
    funext fun x => x.toNat_low_of_narrow.symm
  have halved (v : View) :
      (fun x : Value ⟨.w64, m⟩ v => x.bits.toNat % 2 ^ 32) = BitVec.toNat ∘ Value.low :=
    funext fun x => x.toNat_low.symm
  constructor
  · intro p
    have empty : ∀ i, ((Fin.elim0 : Fin 0 → Word ⟨.w64, m⟩) i).low =
        ((Fin.elim0 : Fin 0 → Word ⟨.w32, m'⟩) i).low := fun i => i.elim0
    obtain ⟨wide, narrow, ran, ran', lows⟩ := p.run_low empty
    refine ⟨wide, narrow, ran, ran', ?_⟩
    rw [narrowed, halved, ← List.map_map, ← List.map_map, lows]
  · intro radix text
    have lows : (Address.parse radix text : Except _ (Address ⟨.w32, m'⟩)).map Value.low =
        (Address.parse radix text : Except _ (Address ⟨.w64, m⟩)).map Value.low :=
      Address.parse_low radix text
    have composed {α β γ : Type} (f : α → β) (g : β → γ) (outcome : Except ParseError α) :
        outcome.map (g ∘ f) = (outcome.map f).map g := by
      cases outcome <;> rfl
    rw [narrowed, halved, composed, composed, lows]

/-- A factor that is negative as an int, and a word rounded up as an offset. -/
example :
    let p : Program 0 :=
      .step (.make (.int 7)) <|
      .step (.operate .address rfl 0 (.mul (.constant (.int (-3))))) <|
      .step (.operate .offset rfl 1 (.align (.int 16) ⟨4, by decide, fun _ => rfl⟩)) .done
    p.run (Fin.elim0 : Fin 0 → Word .hosted64) =
        .ok [.ofBits 7, .ofBits 0xffffffffffffffeb, .ofBits 0xfffffffffffffff0] ∧
      p.run (Fin.elim0 : Fin 0 → Word .target32) =
        .ok [.ofBits 7, .ofBits 0xffffffeb, .ofBits 0xfffffff0] := by
  decide

end MachineWord
