import MachineWord.Cursor.Datum
import MachineWord.Pointer.BitMap
import MachineWord.Pointer.Copy
import MachineWord.Register.Basic
import MachineWord.Value.Order

/-!
# Cursors

A cursor is a pointer that moves through a block of memory. A program for it is a list of
steps that read and write memory at the pointer, move the pointer, or ask about it. Programs
and answers mention neither a model nor a kind of memory, so the same program can be run in
two models and on two memories, and the answers compared. A step that writes answers the
bytes of the whole block. A step that fails leaves the pointer where it is; what it has
stored before it fails stays stored.
-/

set_option autoImplicit false

namespace MachineWord

/-- A memory that is a block of consecutive bytes. -/
class Block (μ : Type) extends Memory μ where
  /-- The pointer to the byte at a distance from the first one. -/
  pointer : (M : Model) → μ → (distance : Nat) → Except Fault (Pointer M)
  /-- All bytes of the block. -/
  snapshot : μ → Except Fault (List UInt8)

instance : Block Region where
  pointer M r := r.pointer M
  snapshot := Region.snapshot

/-- A pointer into a block of memory. -/
structure Cursor (M : Model) (μ : Type) where
  memory : μ
  pointer : Pointer M

namespace Cursor

/-- A place where a scalar is read or written. -/
inductive Place where
  /-- The bytes that an offset reaches. -/
  | offset (y : Operand)
  /-- The element of an array that starts at a displacement. -/
  | element (displacement index : Int32)
  /-- The element of the array that starts at the pointer. -/
  | index (index : Int32)
  /-- The bytes at the pointer. -/
  | here
  deriving DecidableEq, Repr

/-- A way to read or write memory at the pointer, or to ask about the pointer. -/
inductive Use where
  | read (s : Scalar) (place : Place)
  | write (s : Scalar) (place : Place) (pattern : BitVec 64)
  | swapInt (offset : Operand) (expected new : Int32)
  | swapWord (view : View) (offset : Operand) (expected new : BitVec 64)
  | setMapBit (bit : Nat)
  | orMapBits (bit : Nat) (mask : BitVec 8)
  | copy (kind : Kind) (displacement first : Int32) (dst : List (BitVec 64)) (target count : Nat)
  | snapshot
  | dump (count : Nat)
  /-- Whether the pointer is the one to an address. -/
  | equals (pattern : BitVec 64)
  /-- The number of distinct pointers to some addresses. -/
  | distinct (patterns : List (BitVec 64))
  | loadNat (count : Nat) (address : BitVec 64)
  | storeNat (count : Nat) (address : BitVec 64) (n : Nat)
  | loadBytes (address : BitVec 64) (count : Nat)
  | storeBytes (address : BitVec 64) (bytes : List UInt8)
  | swapNat (size : WordSize) (address : BitVec 64) (expected new : Nat)
  deriving DecidableEq, Repr

/-- A way to move the pointer. -/
inductive Move where
  /-- To the byte at a distance from the first one of the block. -/
  | jump (distance : Nat)
  /-- To the address of a value. -/
  | place (seed : Seed)
  | operate (op : Operation)
  | addWords (n : Int32)
  | subWords (n : Int32)
  deriving DecidableEq, Repr

/-- A step of a program. -/
inductive Step where
  | use (u : Use)
  | move (m : Move)
  /-- A question about the address of the pointer. -/
  | query (q : Query)
  deriving DecidableEq, Repr

/-- The answer of a step. -/
inductive Answer where
  | datum (d : Datum)
  | bytes (bytes : List UInt8)
  /-- The value before a swap, and the bytes after it. -/
  | swapped (previous : Datum) (bytes : List UInt8)
  /-- The array after a copy, and the cause for which the copy failed. -/
  | copied (elements : List Datum) (cause : Option CopyError)
  /-- The address to which the pointer has moved. -/
  | moved (address : BitVec 64)
  | flag (b : Bool)
  | count (n : Nat)
  | text (s : String)
  | answer (a : Query.Answer)
  deriving DecidableEq

variable {M : Model} {μ : Type} [Block μ]

/-! ## Steps -/

/-- The value at a place. -/
def readAt (p : Pointer M) (s : Scalar) : Place → Access μ (s.Carrier M)
  | .offset y => p.read s (.ofBits (y.pattern M))
  | .element displacement index => p.get s displacement index
  | .index index => p.getAt s index
  | .here => p.load s

/-- Stores a value at a place. -/
def writeAt (p : Pointer M) (s : Scalar) (value : s.Carrier M) : Place → Access μ Unit
  | .offset y => p.write s (.ofBits (y.pattern M)) value
  | .element displacement index => p.set s displacement index value
  | .index index => p.setAt s index value
  | .here => p.store s value

/-- The bytes of the block, after an access. -/
def stored (access : Access μ Unit) : Access μ Answer := do
  access
  return .bytes (← .query Block.snapshot)

/-- The value before a swap, and the bytes of the block after it. -/
def swapped (access : Access μ Datum) : Access μ Answer := do
  let previous ← access
  return .swapped previous (← .query Block.snapshot)

/-- A copy and its outcome. -/
def copied (memory : μ) (p : Pointer M) (kind : Kind) (displacement first : Int32)
    (dst : List (BitVec 64)) (target count : Nat) : Answer :=
  let (filled, cause) := p.copyElements memory displacement first target count kind
    (dst.map (kind.ofPattern M)).toArray
  .copied (filled.toList.map (kind.datum M)) cause

/-- The answer of a use of the pointer, and what it does to the memory. -/
def access (p : Pointer M) : Use → Access μ Answer
  | .read s place => do return .datum (s.datum M (← readAt p s place))
  | .write s place pattern => stored (writeAt p s (s.ofPattern M pattern) place)
  | .swapInt y expected new => swapped do
    return .number (← p.swapInt (.ofBits (y.pattern M)) expected new).toInt
  | .swapWord view y expected new => swapped do
    let previous : Value M view ←
      p.swapWord (.ofBits (y.pattern M)) (.ofBits expected) (.ofBits new)
    return .text (toString previous)
  | .setMapBit bit => stored (p.setMapBit bit)
  | .orMapBits bit mask => stored (p.orMapBits bit mask)
  | .copy kind displacement first dst target count =>
    .query fun memory : μ => .ok (copied memory p kind displacement first dst target count)
  | .snapshot => stored (pure ())
  | .dump count => do return .text (← .query fun memory : μ => p.dump memory count)
  | .equals pattern => return .flag (p == ⟨.ofBits pattern⟩)
  | .distinct patterns =>
    return .count (Value.distinct (patterns.map fun q => (.ofBits q : Address M))).length
  | .loadNat count a => do
    return .datum (.long (← .query fun memory : μ => Memory.loadNat memory count a))
  | .storeNat count a n => stored (.update fun memory : μ => Memory.storeNat memory count a n)
  | .loadBytes a count => do return .bytes (← .query fun memory : μ => Memory.load memory a count)
  | .storeBytes a bytes => stored (.update fun memory : μ => Memory.store memory a bytes)
  | .swapNat size a expected new => swapped do
    let previous ← Access.exchange fun memory : μ =>
      Memory.swap memory size a (BitVec.ofNat _ expected) (BitVec.ofNat _ new)
    return .long previous.toNat

/-- The pointer after a move. -/
def target (memory : μ) (p : Pointer M) : Move → Except StepError (Pointer M)
  | .jump distance => (Block.pointer M memory distance).mapError .fault
  | .place seed => .ok ⟨seed.value⟩
  | .operate op =>
    match op.perform? p.address with
    | some (.ok address) => .ok ⟨address⟩
    | some (.error cause) => .error (.fault cause)
    | none => .error .notOffered
  | .addWords n => .ok (p.addWords n)
  | .subWords n => .ok (p.subWords n)

/-- The answer of a step and the cursor after it. -/
def step (c : Cursor M μ) : Step → Except StepError Answer × Cursor M μ
  | .use u =>
    match access c.pointer u c.memory with
    | .ok answer memory => (.ok answer, { c with memory })
    | .error cause memory => (.error (.fault cause), { c with memory })
  | .move m =>
    match target c.memory c.pointer m with
    | .ok pointer => (.ok (.moved pointer.address.bits), { c with pointer })
    | .error cause => (.error cause, c)
  | .query q => ((q.ask c.pointer.address).map .answer, c)

/-- The answers of a program and the cursor after it. -/
def run (c : Cursor M μ) : List Step → List (Except StepError Answer) × Cursor M μ
  | [] => ([], c)
  | s :: rest =>
    let (answer, next) := c.step s
    let (answers, last) := next.run rest
    (answer :: answers, last)

/-- A cursor at the first byte of a block. -/
def start (M : Model) (memory : μ) : Except Fault (Cursor M μ) := do
  return ⟨memory, ← Block.pointer M memory 0⟩

end Cursor

end MachineWord
