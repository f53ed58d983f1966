/-!
# Numerals

Numbers are printed in a radix with digits from `0` to `9` and then from `a` on, most
significant digit first and without superfluous zeros. A digit is read back in either case,
by `digitValue?`, in any radix up to 36.
-/

set_option autoImplicit false

namespace MachineWord

namespace Numeral

/-- The digits of a number in a radix. -/
def render (radix n : Nat) : String := String.ofList (Nat.toDigits radix n)

/-- The hexadecimal digits of a number. -/
def hex (n : Nat) : String := render 16 n

/-- The hexadecimal digits of a number, filled up from the left to a number of characters. -/
def paddedHex (fill : Char) (digits n : Nat) : String :=
  String.ofList ((Nat.toDigits 16 n).leftpad digits fill)

/-- A hexadecimal number with the sign of its radix in front. -/
def hexLiteral (n : Nat) : String := "0x" ++ hex n

/-- The two hexadecimal digits of a byte. -/
def hexByte (b : UInt8) : String := paddedHex '0' 2 b.toNat

/-- The position of a letter or digit in the sequence `0` to `9`, `a` to `z`. -/
def alphanumeric? (c : Char) : Option Nat :=
  if '0' ≤ c ∧ c ≤ '9' then some (c.toNat - '0'.toNat)
  else if 'a' ≤ c ∧ c ≤ 'z' then some (c.toNat - 'a'.toNat + 10)
  else if 'A' ≤ c ∧ c ≤ 'Z' then some (c.toNat - 'A'.toNat + 10)
  else none

/-- The value of a character as a digit of a radix. -/
def digitValue? (radix : Nat) (c : Char) : Option Nat :=
  (alphanumeric? c).filter (· < radix)

end Numeral

end MachineWord
