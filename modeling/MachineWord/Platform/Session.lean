import MachineWord.Platform
import MachineWord.Pointer.Basic
import MachineWord.Value.Stream

/-!
# Sessions

A session is the course of one process, of which only the platform installed so far matters.
Its steps install platforms and ask questions that depend on the byte order of the platform:
which one it is, how a new region orders its bytes, and how words are written to streams and
read back. Each such question installs the native platform if none has been installed before
(`Session.current`).
-/

set_option autoImplicit false

namespace MachineWord

/-- The platform installed so far, if there is one. -/
structure Session where
  installed : Option Platform
  deriving DecidableEq, Repr

namespace Session

/-- A session in which nothing has been installed. -/
def fresh : Session := ⟨none⟩

/-- A step of a program. -/
inductive Step where
  | install (requested : Platform)
  /-- The native platform, which is not a question about the installed one. -/
  | native
  | platform
  | order
  /-- A new region of eight bytes, in which an int is stored at distance two. -/
  | region (n : Int32)
  /-- A new region with some bytes at an address. -/
  | newRegion (base : BitVec 64) (size : Nat)
  /-- The bytes of the word of a long. -/
  | write (n : Int64)
  /-- The offset at the front of some bytes. -/
  | read (bytes : List UInt8)
  /-- The word at the front of some bytes. -/
  | readWord (bytes : List UInt8)
  deriving DecidableEq, Repr

/-- The answer of a step. -/
inductive Answer where
  | installed
  | notInstalled (cause : InstallError)
  | platform (p : Platform)
  | order (o : ByteOrder)
  /-- A region as text, and its bytes. -/
  | region (text : String) (bytes : List UInt8)
  | bytes (bytes : List UInt8)
  | value (text : String)
  /-- Too few bytes are left for a value. -/
  | unexpectedEnd
  | fault (cause : Fault)
  deriving DecidableEq, Repr

/-- The platform that a question finds, and the session after the question. -/
def current (p : Session) : Platform × Session :=
  let found := Platform.current p.installed
  (found, ⟨some found⟩)

/-! ## Questions that depend on the order of bytes -/

/-- A region of zeros in the order of the platform. -/
def newRegion (p : Session) (base : BitVec 64) (size : Nat) : Except Fault Region × Session :=
  (Region.zeros base size p.current.1.order, p.current.2)

/-- A stream with a value appended in the order of the platform. -/
def write {M : Model} {v : View} (p : Session) (x : Value M v) (stream : List UInt8) :
    List UInt8 × Session :=
  (x.write p.current.1.order stream, p.current.2)

/-- The value at the front of a stream in the order of the platform, and what follows it. -/
def read? {M : Model} {v : View} (p : Session) (stream : List UInt8) :
    Option (Value M v × List UInt8) × Session :=
  (Value.read? p.current.1.order stream, p.current.2)

/-! ## Steps -/

/-- The address of the first byte of a region, unless another one is chosen. -/
def regionBase : BitVec 64 := 0x1000

/-- A region with an int stored at distance two. -/
def storeSample (n : Int32) (r : Region) : Except Fault Region := do
  let start ← r.start Model.native
  match start.write .int (.ofInt 2) n r with
  | .ok () filled => .ok filled
  | .error cause _ => .error cause

/-- A region as text and its bytes, or the fault for which there are none. -/
def Answer.ofRegion : Except Fault Region → Answer
  | .ok r =>
    match r.snapshot with
    | .ok content => .region (toString r) content
    | .error cause => .fault cause
  | .error cause => .fault cause

/-- A value that has been read. -/
def Answer.ofRead {M : Model} {v : View} : Option (Value M v × List UInt8) → Answer
  | some (x, _) => .value (toString x)
  | none => .unexpectedEnd

/-- The answer of a step and the session after it. -/
def step (p : Session) : Step → Answer × Session
  | .install requested =>
    match requested.install p.installed with
    | .ok platform => (.installed, ⟨some platform⟩)
    | .error cause => (.notInstalled cause, p)
  | .native => (.platform .native, p)
  | .platform => (.platform p.current.1, p.current.2)
  | .order => (.order p.current.1.order, p.current.2)
  | .region n =>
    let (made, next) := p.newRegion regionBase 8
    (.ofRegion (made >>= storeSample n), next)
  | .newRegion base size =>
    let (made, next) := p.newRegion base size
    (.ofRegion made, next)
  | .write n =>
    let (bytes, next) := p.write (Value.ofLong n : Word .native) []
    (.bytes bytes, next)
  | .read bytes =>
    let (found, next) := p.read? bytes
    (.ofRead (found : Option (Offset .native × List UInt8)), next)
  | .readWord bytes =>
    let (found, next) := p.read? bytes
    (.ofRead (found : Option (Word .native × List UInt8)), next)

/-- The answers of a program and the session after it. -/
def run (p : Session) : List Step → List Answer × Session
  | [] => ([], p)
  | s :: rest =>
    let (answer, next) := p.step s
    let (answers, last) := next.run rest
    (answer :: answers, last)

end Session

end MachineWord
