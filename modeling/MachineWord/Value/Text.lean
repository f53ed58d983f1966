import MachineWord.Fault
import MachineWord.Numeral
import MachineWord.Value.Basic

/-!
# Printed values

A value prints as the marker of its view and the hexadecimal digits of its pattern. The
digits also come filled up to the number of digits of a word, and addresses and sizes print
in the radices 2, 8, 10 and 16.
-/

set_option autoImplicit false

namespace MachineWord

namespace Value

variable {M : Model} {v : View}

/-- The hexadecimal digits of the pattern, without superfluous zeros. -/
def hex (x : Value M v) : String := Numeral.hex x.bits.toNat

/-- The hexadecimal digits of the pattern, filled up to the digits of a word. -/
def paddedHex (fill : Char) (x : Value M v) : String :=
  Numeral.paddedHex fill (M.bits / 4) x.bits.toNat

/-- The marker of the view and the hexadecimal digits of the pattern. -/
def text (x : Value M v) : String := v.marker.toString ++ x.hex

instance : ToString (Value M v) := ⟨text⟩

/-- The numeral of the pattern in one of the supported radices. -/
def numeral (radix : Nat) (x : Value M v) : Except Fault String :=
  if radix ∈ [2, 8, 10, 16] then .ok (Numeral.render radix x.bits.toNat)
  else .error (.radix v radix)

end Value

end MachineWord
