import MachineWord.ByteOrder
import MachineWord.Model

/-!
# The platform of a process

A process has at most one platform: the width and the mode of its words and the byte order in
which it writes numbers. It is installed explicitly, or by the first question about it, which
installs the native platform. A platform whose width or mode is not that of the native words
is always refused, and once a platform is installed every other one is refused too.
-/

set_option autoImplicit false

namespace MachineWord

/-- The words of a process and the order of their bytes. -/
structure Platform where
  width : Width
  order : ByteOrder
  mode : Mode
  deriving DecidableEq, Repr

/-- A cause for which a platform is not installed. -/
inductive InstallError where
  /-- There is a platform already. -/
  | alreadyInstalled
  /-- The words requested are not the native ones. -/
  | modelMismatch (requested native : Platform)
  deriving DecidableEq, Repr

namespace InstallError

/-- The words of a platform. -/
def wordsText (p : Platform) : String := s!"{p.mode.name} {p.width} words"

/-- The wording of a cause. -/
def message : InstallError → String
  | alreadyInstalled => "Platform already initialized"
  | modelMismatch requested native =>
    s!"Requested {wordsText requested} but the crate was built for {wordsText native}"

end InstallError

namespace Platform

/-- The native words with a byte order. -/
def withOrder (order : ByteOrder) : Platform := ⟨Model.native.width, order, Model.native.mode⟩

/-- The native words with the byte order of the machine. -/
def native : Platform := withOrder .little

/-- Installs a platform in a process, whose platform so far is given. -/
def install (requested : Platform) (installed : Option Platform) : Except InstallError Platform :=
  if requested.width ≠ native.width ∨ requested.mode ≠ native.mode then
    .error (.modelMismatch requested native)
  else
    match installed with
    | none => .ok requested
    | some _ => .error .alreadyInstalled

/-- The platform that a question finds. -/
def current (installed : Option Platform) : Platform := installed.getD native

end Platform

end MachineWord
