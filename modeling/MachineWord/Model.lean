import MachineWord.Width

/-!
# Word models

A model fixes the size of a word and the mode in which a word is kept. All computation is on
bit patterns, 64 bit vectors whose bits from the size of a word upwards are zero. A hosted
word is kept as a host number, the sign extension of its pattern; a target word is kept as
the pattern itself.

`encode` keeps a pattern and `decode` recovers it: what comes back is the pattern cut off at
the size of a word (`decode_encode`). A cell is canonical if it is the one that its own
pattern is kept in, and `encode` makes canonical cells only (`canonical_encode`).
-/

set_option autoImplicit false

namespace MachineWord

/-- The size of the words of a machine. -/
inductive WordSize where
  | w32
  | w64
  deriving DecidableEq, Repr

namespace WordSize

/-- The number of bits of a word. -/
def bits : WordSize → Nat
  | w32 => 32
  | w64 => 64

/-- The number of bytes of a word. -/
def bytes : WordSize → Nat
  | w32 => 4
  | w64 => 8

/-- The width category of a word. -/
def width : WordSize → Width
  | w32 => .bits32
  | w64 => .bits64

theorem bits_eq (s : WordSize) : s.bits = 8 * s.bytes := by cases s <;> rfl

theorem bits_le (s : WordSize) : s.bits ≤ 64 := by cases s <;> decide

end WordSize

/-- The way in which words are kept. -/
inductive Mode where
  /-- Words are numbers of the machine that simulates the words. -/
  | hosted
  /-- Words are bit patterns of the machine itself. -/
  | target
  deriving DecidableEq, Repr

namespace Mode

/-- The name of a mode. -/
def name : Mode → String
  | hosted => "Hosted"
  | target => "Target"

/-- The storage of one word. -/
def Cell : Mode → Type
  | hosted => Int64
  | target => BitVec 64

/-- Keeps a pattern that has been cut off at the size of a word. -/
def encode (s : WordSize) : (mode : Mode) → BitVec 64 → mode.Cell
  | hosted, pattern => Int64.ofBitVec ((pattern.setWidth s.bits).signExtend 64)
  | target, pattern => pattern

end Mode

/-- A size of words and a way of keeping them. -/
structure Model where
  size : WordSize
  mode : Mode
  deriving DecidableEq, Repr

namespace Model

/-- Words of 32 bits kept as host numbers. -/
def hosted32 : Model := ⟨.w32, .hosted⟩

/-- Words of 64 bits kept as host numbers. -/
def hosted64 : Model := ⟨.w64, .hosted⟩

/-- Words of 32 bits kept as patterns. -/
def target32 : Model := ⟨.w32, .target⟩

/-- Words of 64 bits kept as patterns. -/
def target64 : Model := ⟨.w64, .target⟩

/-- The model of the machine that the program runs on. -/
def native : Model := target64

variable (M : Model)

/-- The number of bits of a word. -/
def bits : Nat := M.size.bits

/-- The number of bytes of a word. -/
def bytes : Nat := M.size.bytes

/-- The width category of a word. -/
def width : Width := M.size.width

/-- The number of 32 bit integers that fit into a word. -/
def intsPerWord : Nat := M.bytes / 4

/-- The pattern in which exactly the bits of a word are set. -/
def mask : BitVec 64 := BitVec.allOnes 64 >>> (64 - M.bits)

/-- The pattern cut off at the size of a word. -/
def truncate (pattern : BitVec 64) : BitVec 64 := pattern &&& M.mask

/-- The long with the word's pattern read as a signed number. -/
def signExtend (pattern : BitVec 64) : Int64 :=
  Int64.ofBitVec ((pattern.setWidth M.bits).signExtend 64)

/-- The storage of one word. -/
abbrev Cell : Type := M.mode.Cell

/-- Keeps a pattern, cut off at the size of a word. -/
def encode (pattern : BitVec 64) : M.Cell := M.mode.encode M.size (M.truncate pattern)

/-- The pattern that a cell keeps. -/
def decode : (M : Model) → M.Cell → BitVec 64
  | ⟨size, .hosted⟩, cell => Model.truncate ⟨size, .hosted⟩ cell.toBitVec
  | ⟨_, .target⟩, cell => cell

/-- A cell is canonical if keeping its pattern gives the same cell. -/
def Canonical (cell : M.Cell) : Prop := M.encode (M.decode cell) = cell

/-! ## Patterns -/

theorem bits_eq : M.bits = 8 * M.bytes := M.size.bits_eq

theorem bits_le : M.bits ≤ 64 := M.size.bits_le

theorem truncate_eq_setWidth (pattern : BitVec 64) :
    M.truncate pattern = (pattern.setWidth M.bits).setWidth 64 := by
  apply BitVec.eq_of_toNat_eq
  have remainder : (M.truncate pattern).toNat = pattern.toNat % 2 ^ M.bits := by
    rcases M with ⟨_ | _, _⟩
    · exact Nat.and_two_pow_sub_one_eq_mod pattern.toNat 32
    · exact Nat.and_two_pow_sub_one_eq_mod pattern.toNat 64
  have bound : pattern.toNat % 2 ^ M.bits < 2 ^ 64 :=
    Nat.lt_of_le_of_lt (Nat.mod_le _ _) pattern.isLt
  rw [remainder, BitVec.toNat_setWidth, BitVec.toNat_setWidth, Nat.mod_eq_of_lt bound]

theorem truncate_truncate (pattern : BitVec 64) :
    M.truncate (M.truncate pattern) = M.truncate pattern := by
  simp only [truncate, BitVec.and_assoc, BitVec.and_self]

theorem setWidth_signExtend (pattern : BitVec 64) :
    (M.signExtend pattern).toBitVec.setWidth M.bits = pattern.setWidth M.bits := by
  ext i hi
  have wide : i < 64 := Nat.lt_of_lt_of_le hi M.bits_le
  simp [signExtend, BitVec.getElem_signExtend, hi, wide]

/-- A pattern and its sign extension agree within a word. -/
theorem truncate_signExtend (pattern : BitVec 64) :
    M.truncate (M.signExtend pattern).toBitVec = M.truncate pattern := by
  rw [truncate_eq_setWidth, setWidth_signExtend, ← truncate_eq_setWidth]

/-! ## Cells -/

/-- What is kept comes back, cut off at the size of a word. -/
@[simp] theorem decode_encode (pattern : BitVec 64) :
    M.decode (M.encode pattern) = M.truncate pattern := by
  rcases M with ⟨size, _ | _⟩
  · exact (truncate_signExtend ⟨size, .hosted⟩ _).trans (truncate_truncate _ pattern)
  · rfl

theorem encode_truncate (pattern : BitVec 64) :
    M.encode (M.truncate pattern) = M.encode pattern := by
  rw [encode, truncate_truncate, encode]

theorem canonical_encode (pattern : BitVec 64) : M.Canonical (M.encode pattern) := by
  rw [Canonical, decode_encode, encode_truncate]

end Model

end MachineWord
