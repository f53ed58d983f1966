import MachineWord.Arithmetic.Unsigned

/-!
# Reading addresses

An address is read from the digits of a radix, from left to right and with the arithmetic of
addresses, so numerals beyond the largest address wrap around. The empty text reads as zero.
The first character that is not a digit is reported with the number of bytes in front of it.
-/

set_option autoImplicit false

namespace MachineWord

/-- A cause for which a text is not read. -/
inductive ParseError where
  /-- The radix is refused, whatever the text. -/
  | refused (fault : Fault)
  /-- A character that is not a digit, and the number of bytes in front of it. -/
  | invalidDigit (char : Char) (position : Nat)
  deriving DecidableEq, Repr

/-- The wording of a cause. -/
def ParseError.message : ParseError → String
  | refused fault => fault.message
  | invalidDigit c position => s!"Invalid digit '{c}' at position {position}"

namespace Address

variable {M : Model}

/-- One more digit at the right end of a numeral. -/
def appendDigit (radix : Nat) (x : Address M) (digit : Nat) : Address M :=
  (x.mul (.unsignedInt (UInt32.ofNat radix))).add (.unsignedInt (UInt32.ofNat digit))

/-- Continues a numeral at a position with the given characters. -/
def parseDigits (radix : Nat) : List Char → Nat → Address M → Except ParseError (Address M)
  | [], _, x => .ok x
  | c :: rest, position, x =>
    match Numeral.digitValue? radix c with
    | some digit => parseDigits radix rest (position + c.utf8Size) (x.appendDigit radix digit)
    | none => .error (.invalidDigit c position)

/-- Reads a text as an address in a radix from 2 to 36. -/
def parse (radix : Nat) (text : String) : Except ParseError (Address M) :=
  if 2 ≤ radix ∧ radix ≤ 36 then parseDigits radix text.toList 0 .zero
  else .error (.refused (.radix .address radix))

end Address

end MachineWord
