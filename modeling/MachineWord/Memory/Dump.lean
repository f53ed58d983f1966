import MachineWord.Memory.Region

/-!
# Dumps of regions

A dump shows the bytes of a region in lines of sixteen. A line starts with the address of its
first byte, in at least eight digits, and shows each byte as two digits.
-/

set_option autoImplicit false

namespace MachineWord

/-- Bytes as pairs of hexadecimal digits, each with a blank in front. -/
def dumpBytes (bytes : List UInt8) : String :=
  String.join (bytes.map fun b => " " ++ Numeral.hexByte b)

namespace Region

/-- The number of bytes in a line of a dump. -/
def lineBytes : Nat := 16

/-- One line of a dump. -/
def dumpLine (address : Nat) (bytes : List UInt8) : String :=
  "0x" ++ Numeral.paddedHex '0' 8 address ++ ":" ++ dumpBytes bytes ++ "\n"

/-- The lines of a dump of bytes at an address. -/
def dumpLines (address : Nat) (bytes : List UInt8) : List String :=
  if bytes = [] then []
  else dumpLine address (bytes.take lineBytes) ::
    dumpLines (address + lineBytes) (bytes.drop lineBytes)
termination_by bytes.length
decreasing_by
  rename_i nonempty
  have := List.length_pos_iff.2 nonempty
  simp only [List.length_drop, lineBytes]
  omega

/-- The dump of a region. -/
def dump (r : Region) : Except Fault String := do
  return String.join (dumpLines r.base.toNat (← r.snapshot))

end Region

end MachineWord
