/-!
# Views of a word

The same bits are read as an untyped word, as an address, as a displacement between
addresses, as a count of bytes or as a reference to an object. A view decides the marker in
front of a printed value and whether the value is a signed number.
-/

set_option autoImplicit false

namespace MachineWord

/-- A reading of the bits of a word. -/
inductive View where
  | word
  | address
  | offset
  | size
  | reference
  deriving DecidableEq, Repr

namespace View

/-- The name of a view. -/
def name : View → String
  | word => "Word"
  | address => "Address"
  | offset => "Offset"
  | size => "Size"
  | reference => "Reference"

/-- The marker in front of a printed value. -/
def marker : View → Char
  | word => '$'
  | address => '@'
  | offset => '&'
  | size => '#'
  | reference => '*'

/-- Only displacements are signed numbers. -/
def isSigned : View → Bool
  | offset => true
  | _ => false

end View

end MachineWord
