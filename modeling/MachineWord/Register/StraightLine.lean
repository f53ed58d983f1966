import Mathlib
import MachineWord.Arithmetic.Shared
import MachineWord.Register.Basic

/-!
# Straight-line programs

A straight-line program makes words one after the other, from seeds and from the words that it has
made before. It computes sums, differences, products and bits, under any view that has the
operation. Distances of shifts and indices of bits are below 32, and alignments are powers of two
below 2 ^ 32, so they are within a word of every model. A program does not mention a model, so the
same program can be run in two models.

An instruction is performed in every model and computes a pattern from those of its arguments
(`Instruction.perform?_eq`).
-/

set_option autoImplicit false

namespace MachineWord

/-- The operand is the same power of two in all models, and lies within 32 bits. -/
def Operand.IsAlignment (y : Operand) : Prop := ∃ k < 32, ∀ M : Model, y.number M = 2 ^ k

namespace StraightLine

/-- The second argument of an instruction, when some words have been made. -/
inductive Argument (n : Nat) where
  | constant (y : Operand)
  /-- An earlier word under a view. -/
  | result (i : Fin n) (view : View)
  deriving DecidableEq, Repr

/-- What is done with a value under a view, when some words have been made. -/
inductive Instruction (v : View) (n : Nat) where
  | add (y : Argument n)
  | sub (y : Argument n)
  | mul (y : Argument n)
  | neg (signed : v = .offset)
  | align (y : Operand) (alignment : y.IsAlignment)
  | and (y : Argument n)
  | or (y : Argument n)
  | xor (y : Argument n)
  | not
  | shiftLeft (distance : Fin 32)
  | setBit (index : Fin 32) (unsigned : v ≠ .offset)
  | clearBit (index : Fin 32) (unsigned : v ≠ .offset)

/-- A way to make one more word. -/
inductive Step (n : Nat) where
  | make (seed : Seed)
  /-- An instruction on an earlier word under a view. -/
  | operate (view : View) (arithmetic : view.isArithmetic = true) (receiver : Fin n)
      (instruction : Instruction view n)

/-- The steps that follow when some words have been made. -/
inductive Program : Nat → Type where
  | done {n : Nat} : Program n
  | step {n : Nat} (first : Step n) (rest : Program (n + 1)) : Program n

variable {M : Model} {v : View} {n : Nat}

/-- The argument as an operand. -/
def Argument.operand (words : Fin n → Word M) : Argument n → Operand
  | constant y => y
  | result i view => ((words i).as view).operand

/-- The instruction as an operation. -/
def Instruction.operation (words : Fin n → Word M) : Instruction v n → Operation
  | add y => .add (y.operand words)
  | sub y => .sub (y.operand words)
  | mul y => .mul (y.operand words)
  | neg _ => .neg
  | align y _ => .align y
  | and y => .and (y.operand words)
  | or y => .or (y.operand words)
  | xor y => .xor (y.operand words)
  | not => .not
  | shiftLeft distance => .shiftLeft distance
  | setBit index _ => .setBit index
  | clearBit index _ => .clearBit index

/-- The pattern that the instruction computes from one and from those of the words. -/
def Instruction.pattern (words : Fin n → Word M) (p : BitVec 64) : Instruction v n → BitVec 64
  | add y => p + (y.operand words).pattern M
  | sub y => p - (y.operand words).pattern M
  | mul y => p * (y.operand words).pattern M
  | neg _ => -p
  | align y _ => (p + (y.wordPattern M - 1)) &&& ~~~(y.wordPattern M - 1)
  | and y => p &&& (y.operand words).pattern M
  | or y => p ||| (y.operand words).pattern M
  | xor y => p ^^^ (y.operand words).pattern M
  | not => ~~~p
  | shiftLeft distance => p <<< distance.val
  | setBit index _ => p ||| BitVec.twoPow 64 index
  | clearBit index _ => p &&& ~~~BitVec.twoPow 64 index

/-- The word that a step makes. -/
def Step.word (words : Fin n → Word M) : Step n → Except StepError (Word M)
  | make seed => .ok seed.value
  | operate view _ receiver instruction => do
      let register : Register M := ⟨view, (words receiver).as view⟩
      let replaced ← register.replace (.operate (instruction.operation words))
      return replaced.value.as .word

/-- The words that a program makes, unless a step fails. -/
def Program.run {n : Nat} : Program n → (Fin n → Word M) → Except StepError (List (Word M))
  | done, _ => .ok []
  | step first rest, words => do
      let word ← first.word words
      let later ← rest.run (Fin.snoc words word)
      return word :: later

end StraightLine

/-! ## Performing an instruction -/

variable {M : Model} {v : View}

/-- An alignment within 32 bits is accepted in every model. -/
theorem Operand.IsAlignment.accepted {y : Operand} (alignment : y.IsAlignment) :
    y.alignment M v = .ok (y.wordPattern M) := by
  obtain ⟨k, small, number⟩ := alignment
  have below : 2 ^ k < 2 ^ 32 := Nat.pow_lt_pow_right (by decide) small
  have inWord : 2 ^ k < 2 ^ M.bits := below.trans_le (Nat.pow_le_pow_right (by decide) M.le_bits)
  have pattern : y.pattern M = BitVec.ofNat 64 (2 ^ k) := by
    rw [pattern_eq_ofInt, number, ← BitVec.ofInt_natCast, Nat.cast_pow, Nat.cast_ofNat]
  have power : (y.wordPattern M).toNat = 2 ^ k := by
    rw [wordPattern, Model.toNat_truncate, pattern, BitVec.toNat_ofNat,
      Nat.mod_eq_of_lt (below.trans (by decide)), Nat.mod_eq_of_lt inWord]
  exact if_pos ⟨k, power⟩

theorem Value.bit_of_lt {i : Nat} (small : i < 32) :
    Value.bit M v i = .ok (BitVec.twoPow 64 i) :=
  if_pos (small.trans_le M.le_bits)

theorem Operation.perform?_of_ne_offset (arithmetic : v.isArithmetic = true)
    (unsigned : v ≠ .offset) (op : Operation) (x : Value M v) :
    op.perform? x = op.onUnsigned x := by
  cases v with
  | address => rfl
  | size => rfl
  | offset => contradiction
  | word => contradiction
  | reference => contradiction

namespace StraightLine

variable {n : Nat} (words : Fin n → Word M)

/-- An instruction is performed under every view that has it, in every model. -/
theorem Instruction.perform?_eq (i : Instruction v n) (arithmetic : v.isArithmetic = true)
    (x : Value M v) :
    (i.operation words).perform? x = some (.ok (.ofBits (i.pattern words x.bits))) := by
  have shared {op : Operation} (h : op.isShared = true) : op.perform? x = op.onUnsigned x :=
    Operation.perform?_of_isShared h arithmetic x
  cases i with
  | add y => exact shared rfl
  | sub y => exact shared rfl
  | mul y => exact shared rfl
  | neg signed =>
      cases v with
      | offset => exact congrArg (some ∘ Except.ok) (Offset.neg_eq x)
      | _ => contradiction
  | align y alignment =>
      rw [operation, shared rfl, Operation.onUnsigned, Value.align, alignment.accepted]
      rfl
  | and y => exact shared rfl
  | or y => exact shared rfl
  | xor y => exact shared rfl
  | not => exact shared rfl
  | shiftLeft distance =>
      rw [operation, shared rfl, Operation.onUnsigned, Value.shiftLeft,
        Nat.mod_eq_of_lt (distance.isLt.trans_le M.le_bits)]
      rfl
  | setBit index unsigned =>
      rw [operation, Operation.perform?_of_ne_offset arithmetic unsigned, Operation.onUnsigned,
        Value.setBit, Value.bit_of_lt index.isLt]
      rfl
  | clearBit index unsigned =>
      rw [operation, Operation.perform?_of_ne_offset arithmetic unsigned, Operation.onUnsigned,
        Value.clearBit, Value.bit_of_lt index.isLt]
      rfl

theorem Step.word_operate (view : View) (arithmetic : view.isArithmetic = true) (receiver : Fin n)
    (instruction : Instruction view n) :
    (operate view arithmetic receiver instruction).word words =
      .ok (.ofBits (instruction.pattern words (words receiver).bits)) := by
  rw [word, Register.replace, instruction.perform?_eq words arithmetic]
  rfl

theorem Program.run_step {first : Step n} {rest : Program (n + 1)} {word : Word M}
    {later : List (Word M)} (ran : first.word words = .ok word)
    (made : rest.run (Fin.snoc words word) = .ok later) :
    (step first rest).run words = .ok (word :: later) := by
  rw [run, ran]
  change (rest.run (Fin.snoc words word) >>= fun later => pure (word :: later)) = _
  rw [made]
  rfl

end StraightLine

end MachineWord
