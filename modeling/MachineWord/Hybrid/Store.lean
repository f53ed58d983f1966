import MachineWord.Cursor.Basic
import MachineWord.Hybrid.Basic

/-!
# Hybrids over one heap

A store is a bump heap together with the hybrids made so far, which are numbered in the order
in which they were made. A program makes hybrids, expands them and uses their tails. It works
for fields of any type, since only the shapes of the tails matter. A step that fails makes no
hybrid and changes none.
-/

set_option autoImplicit false

namespace MachineWord

/-- A bump heap and the hybrids over it. -/
structure HybridStore (M : Model) (φ : Type) where
  heap : BumpHeap
  hybrids : Array (Hybrid M φ)

namespace HybridStore

/-- A way to use a hybrid. -/
inductive Use (φ : Type) where
  | expand (length : Int32)
  | state
  | print
  | setFields (fields : φ)
  | length
  | firstWord
  | lastWord
  | firstInt
  | lastInt
  | getWord (index : Int32)
  | getInt (index : Int32)
  | setWord (index : Int32) (pattern : BitVec 64)
  | setInt (index : Int32) (value : Int32)
  | dump
  deriving DecidableEq, Repr

/-- A step of a program. Hybrids are given by their numbers. -/
inductive Step (φ : Type) where
  /-- Makes a hybrid without a tail. -/
  | new (fields : φ)
  /-- Stores a word in the region of the heap. -/
  | poke (address : BitVec 64) (pattern : BitVec 64)
  | use (h : Nat) (u : Use φ)
  deriving DecidableEq, Repr

/-- The answer of a step. -/
inductive Answer (φ : Type) where
  /-- The number of a new hybrid. -/
  | made (h : Nat)
  /-- The number of a new hybrid, its fields, the origin of its tail, and the bytes of the
  region. -/
  | expanded (h : Nat) (fields : φ) (origin : Option String) (bytes : List UInt8)
  | state (origin : Option String) (fields : φ)
  | fields (fields : φ)
  | bytes (bytes : List UInt8)
  | number (n : Int)
  | text (s : String)
  deriving DecidableEq, Repr

variable {M : Model} {φ : Type} [TailFields M φ] [ToString φ]

/-- A store without hybrids. -/
def empty (region : Region) : HybridStore M φ := ⟨.empty region, #[]⟩

/-- An access to the heap of a store. -/
def inHeap {α : Type} (access : Access BumpHeap α) : Access (HybridStore M φ) α := fun store =>
  match access store.heap with
  | .ok a heap => .ok a { store with heap }
  | .error fault heap => .error fault { store with heap }

/-- The bytes of the region. -/
def snapshot : Access (HybridStore M φ) (List UInt8) :=
  .query fun store => store.heap.region.snapshot

/-- Adds a hybrid and answers its number. -/
def push (h : Hybrid M φ) : Access (HybridStore M φ) Nat := fun store =>
  .ok store.hybrids.size { store with hybrids := store.hybrids.push h }

/-- Puts a hybrid in the place of the one with a number. -/
def put (i : Nat) (h : Hybrid M φ) : Access (HybridStore M φ) Unit := fun store =>
  .ok () { store with hybrids := store.hybrids.setIfInBounds i h }

/-- The text of the origin of a hybrid. -/
def originText (h : Hybrid M φ) : Option String := h.origin.map toString

/-- The answer of a use of the hybrid with a number, and what it does to the store. -/
def access (i : Nat) (h : Hybrid M φ) : Use φ → Access (HybridStore M φ) (Answer φ)
  | .expand length => do
    let expanded ← inHeap (h.expand length)
    let number ← push expanded
    return .expanded number expanded.fields (originText expanded) (← snapshot)
  | .state => return .state (originText h) h.fields
  | .print => return .text (toString h)
  | .setFields fields => do
    put i { h with fields }
    return .fields fields
  | .length => do return .number (← inHeap h.length).toInt
  | .firstWord => do return .number (← inHeap h.firstWord).toInt
  | .lastWord => do return .number (← inHeap h.lastWord).toInt
  | .firstInt => do return .number (← inHeap h.firstInt).toInt
  | .lastInt => do return .number (← inHeap h.lastInt).toInt
  | .getWord index => do return .text (toString (← inHeap (h.getWord index)))
  | .getInt index => do return .number (← inHeap (h.getInt index)).toInt
  | .setWord index pattern => do
    inHeap (h.setWord index (.ofBits pattern))
    return .bytes (← snapshot)
  | .setInt index value => do
    inHeap (h.setInt index value)
    return .bytes (← snapshot)
  | .dump => do return .text (← inHeap h.dumpTail)

/-- Stores a word in the region of the heap, and answers the bytes of the region. -/
def poke (address pattern : BitVec 64) : Access (HybridStore M φ) (Answer φ) := do
  let place : Pointer M := ⟨.ofBits address⟩
  inHeap (BumpHeap.inRegion (place.write .word .zero (.ofBits pattern : Word M)))
  return .bytes (← snapshot)

/-- The outcome of a step, unless it uses a hybrid that has not been made. -/
def outcome? (store : HybridStore M φ) :
    Step φ → Option (EStateM.Result Fault (HybridStore M φ) (Answer φ))
  | .new fields => some ((.made <$> push (.new fields) : Access _ (Answer φ)) store)
  | .poke address pattern => some (poke address pattern store)
  | .use i u => store.hybrids[i]?.map fun h => access i h u store

/-- The answer of a step and the store after it. -/
def step (store : HybridStore M φ) (s : Step φ) :
    Except StepError (Answer φ) × HybridStore M φ :=
  match store.outcome? s with
  | some (.ok answer next) => (.ok answer, next)
  | some (.error cause next) => (.error (.fault cause), next)
  | none => (.error .notOffered, store)

/-- The answers of a program and the store after it. -/
def run (store : HybridStore M φ) :
    List (Step φ) → List (Except StepError (Answer φ)) × HybridStore M φ
  | [] => ([], store)
  | s :: rest =>
    let (answer, next) := store.step s
    let (answers, last) := next.run rest
    (answer :: answers, last)

end HybridStore

end MachineWord
