import MachineWord.Hybrid.Heap
import MachineWord.Hybrid.Shape
import MachineWord.Value.Text

/-!
# Hybrids

A hybrid is an object with declared fields and a tail. It is made without a tail and expanded
once, which gives a new hybrid and leaves the old one as it is. Only an expanded hybrid has a
length and elements. Its elements are words and ints, and an index is checked against the
shape of the tail before the heap is asked.
-/

set_option autoImplicit false

namespace MachineWord

/-- Fields that decide the shape of a tail. -/
class TailFields (M : Model) (φ : Type) where
  /-- The shape of the tail of a hybrid with these fields. -/
  shape : φ → TailShape

/-- Fields together with a tail, once it has been given out. -/
structure Hybrid (M : Model) (φ : Type) where
  fields : φ
  /-- The origin of the tail. -/
  origin : Option (Reference M)

namespace Hybrid

variable {M : Model} {φ η : Type} [TailFields M φ] [TailHeap M η]

/-- A hybrid without a tail. -/
def new (fields : φ) : Hybrid M φ := ⟨fields, none⟩

/-- Whether the hybrid has a tail. -/
def isExpanded (h : Hybrid M φ) : Bool := h.origin.isSome

/-- The shape of the tail. -/
def shape (h : Hybrid M φ) : TailShape := TailFields.shape M h.fields

/-- A hybrid with the same fields and a tail with a number of words. -/
def expand (h : Hybrid M φ) (length : Int32) : Access η (Hybrid M φ) := do
  if h.isExpanded then .fail .alreadyExpanded
  else if length < 0 then .fail (.negativeLength length.toInt)
  else return { h with origin := some (← TailHeap.expand length) }

/-- The origin of the tail of an expanded hybrid. -/
def expandedOrigin (h : Hybrid M φ) : Access η (Reference M) :=
  match h.origin with
  | some origin => pure origin
  | none => .fail .unexpanded

/-! ## Lengths and indices -/

/-- The number of words of the tail. -/
def length (h : Hybrid M φ) : Access η Int32 := do
  TailHeap.length (← h.expandedOrigin)

/-- The first word that may be used. -/
def firstWord (h : Hybrid M φ) : Access η Int32 := do
  let _ ← h.expandedOrigin
  return h.shape.firstWord

/-- The last word that may be used. -/
def lastWord (h : Hybrid M φ) : Access η Int32 := do
  return h.shape.lastWord (← h.length)

/-- The first int that may be used. -/
def firstInt (h : Hybrid M φ) : Access η Int32 := do
  let _ ← h.expandedOrigin
  .query fun _ => h.shape.firstInt

/-- The last int that may be used. -/
def lastInt (h : Hybrid M φ) : Access η Int32 := do
  let length ← h.length
  .query fun _ => h.shape.lastInt length

/-- The origin of the tail, for an index of a word that may be used. -/
def checkWord (h : Hybrid M φ) (index : Int32) : Access η (Reference M) := do
  let origin ← h.expandedOrigin
  let first ← h.firstWord
  let last ← h.lastWord
  if first ≤ index ∧ index ≤ last then return origin
  else .fail (.wordIndex index.toInt first.toInt last.toInt)

/-- The origin of the tail, for an index of an int that may be used. -/
def checkInt (h : Hybrid M φ) (index : Int32) : Access η (Reference M) := do
  let origin ← h.expandedOrigin
  let first ← h.firstInt
  let last ← h.lastInt
  if first ≤ index ∧ index ≤ last then return origin
  else .fail (.intIndex index.toInt first.toInt last.toInt)

/-! ## Elements -/

/-- The word at an index of the tail. -/
def getWord (h : Hybrid M φ) (index : Int32) : Access η (Word M) := do
  TailHeap.getWord (← h.checkWord index) index

/-- Stores a word at an index of the tail. -/
def setWord (h : Hybrid M φ) (index : Int32) (value : Word M) : Access η Unit := do
  TailHeap.setWord (← h.checkWord index) index value

/-- The int at an index of the tail. -/
def getInt (h : Hybrid M φ) (index : Int32) : Access η Int32 := do
  TailHeap.getInt (← h.checkInt index) index

/-- Stores an int at an index of the tail. -/
def setInt (h : Hybrid M φ) (index : Int32) (value : Int32) : Access η Unit := do
  TailHeap.setInt (← h.checkInt index) index value

/-! ## Printed tails -/

/-- The line that shows a word of the tail. -/
def tailLine (index : Int32) (value : Word M) : String :=
  let digits := value.paddedHex '0'
  s!"[{index.toInt}] {digits}\n"

/-- The lines that show a number of words, from an index on. -/
def tailLines (h : Hybrid M φ) : (index : Int) → (count : Nat) → Access η (List String)
  | _, 0 => pure []
  | index, count + 1 => do
    let line := tailLine (Int32.ofInt index) (← h.getWord (Int32.ofInt index))
    return line :: (← tailLines h (index + 1) count)

/-- The words of the tail that may be used, one per line. -/
def dumpTail (h : Hybrid M φ) : Access η String := do
  let first ← h.firstWord
  let last ← h.lastWord
  return String.join (← h.tailLines first.toInt (last.toInt + 1 - first.toInt).toNat)

instance [ToString φ] : ToString (Hybrid M φ) where
  toString h :=
    let origin := match h.origin with
      | some origin => s!"Some({origin})"
      | none => "None"
    s!"Hybrid \x7b fields: {h.fields}, origin: {origin} \x7d"

end Hybrid

end MachineWord
