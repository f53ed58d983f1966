import Mathlib
import MachineWord.Hybrid.Affine
import MachineWord.Hybrid.Store
import MachineWord.Proofs.Memory.Typed

/-!
# Tails apart from a heap

A tail apart from a heap is a length and a row of bytes of its own, all zero at first. It is
seen through elements of any kind: an element is a slice of the bytes, and storing one puts
its code in the place of the slice, so that for each byte the last write counts (`get_put_self`,
`get_put_apart`, `get_zeros`).

A ledger keeps such a tail for each hybrid that a program has expanded. It follows the
program step by step (`replay`). A step that writes to one hybrid touches the tail of this
hybrid and no other one, so the tail of a hybrid is known from its own steps
(`replay_eq_own`).
-/

set_option autoImplicit false

namespace MachineWord

/-- A length, and the bytes of the words of a tail. -/
structure Tail where
  length : Int32
  bytes : List UInt8
  deriving DecidableEq

namespace Tail

section Definitions

variable (M : Model) (order : ByteOrder) (t : Tail) (s : Scalar)

/-- A tail of zeros. -/
def zeros (length : Int32) : Tail := ⟨length, List.replicate (length.toInt.toNat * M.bytes) 0⟩

/-- The bytes of the element at an index. -/
def slice (index : Int32) : List UInt8 :=
  (t.bytes.drop (index.toInt.toNat * s.bytes M)).take (s.bytes M)

/-- The element at an index. -/
def get (index : Int32) : s.Carrier M := s.decode M (order.decode (t.slice M s index))

/-- The tail with an element stored at an index. -/
def put (index : Int32) (x : s.Carrier M) : Tail :=
  { t with
    bytes := Region.overlay t.bytes (index.toInt.toNat * s.bytes M) (Pointer.code M s order x) }

end Definitions

/-! ## Elements of a tail -/

section Elements

variable {M : Model} {order : ByteOrder} {t : Tail} {s other : Scalar} {index index' : Int32}
  {x : s.Carrier M}

/-- The element that has been stored last is found. -/
theorem get_put_self
    (inside : index.toInt.toNat * s.bytes M + s.bytes M ≤ t.bytes.length) :
    (t.put M order s index x).get M order s index = x := by
  have fits : index.toInt.toNat * s.bytes M + (Pointer.code M s order x).length ≤
      t.bytes.length := by rwa [Pointer.length_code]
  have found := Region.take_drop_overlay_self fits
  rw [Pointer.length_code] at found
  rw [get, slice, put, found, Pointer.decode_code]

/-- An element of any kind is kept if the bytes of the one stored lie apart. -/
theorem get_put_apart
    (inside : index.toInt.toNat * s.bytes M + s.bytes M ≤ t.bytes.length)
    (apart : index'.toInt.toNat * other.bytes M + other.bytes M ≤ index.toInt.toNat * s.bytes M ∨
      index.toInt.toNat * s.bytes M + s.bytes M ≤ index'.toInt.toNat * other.bytes M) :
    (t.put M order s index x).get M order other index' = t.get M order other index' := by
  have fits : index.toInt.toNat * s.bytes M + (Pointer.code M s order x).length ≤
      t.bytes.length := by rwa [Pointer.length_code]
  have kept : ((Region.overlay t.bytes _ (Pointer.code M s order x)).drop
      (index'.toInt.toNat * other.bytes M)).take (other.bytes M) = t.slice M other index' :=
    Region.take_drop_overlay_apart fits (by rwa [Pointer.length_code])
  rw [get, slice, put, kept, get]

/-- The elements of a new tail have the code zero. -/
theorem get_zeros (M : Model) (order : ByteOrder) (s : Scalar) (length index : Int32) :
    (zeros M length).get M order s index = s.decode M 0 := by
  rw [get, slice, zeros, List.drop_replicate, List.take_replicate,
    ByteOrder.decode_replicate_zero]

end Elements

end Tail

namespace TailShape

/-- A shape whose indices lie in the tail, and whose ints are those of its words. -/
structure Tame (M : Model) (shape : TailShape) : Prop where
  first_nonneg : 0 ≤ shape.firstWord.toInt
  last_lt (length : Int32) (nonneg : 0 ≤ length.toInt) :
    (shape.lastWord length).toInt ≤ length.toInt - 1
  firstInt_eq : shape.firstInt = firstIntOfWord M shape.firstWord
  lastInt_eq (length : Int32) : shape.lastInt length = lastIntOfWord M (shape.lastWord length)

/-- A shape that is tame for tails with a number of words. -/
structure TameAt (M : Model) (shape : TailShape) (length : Int32) : Prop where
  first_nonneg : 0 ≤ shape.firstWord.toInt
  last_lt : (shape.lastWord length).toInt ≤ length.toInt - 1
  firstInt_eq : shape.firstInt = firstIntOfWord M shape.firstWord
  lastInt_eq : shape.lastInt length = lastIntOfWord M (shape.lastWord length)

theorem Tame.tameAt {M : Model} {shape : TailShape} {length : Int32} (tame : shape.Tame M)
    (nonneg : 0 ≤ length.toInt) : shape.TameAt M length :=
  ⟨tame.first_nonneg, tame.last_lt length nonneg, tame.firstInt_eq, tame.lastInt_eq length⟩

/-- The index of a word that may be used. -/
def AllowsWord (shape : TailShape) (length index : Int32) : Prop :=
  shape.firstWord.toInt ≤ index.toInt ∧ index.toInt ≤ (shape.lastWord length).toInt

/-- The index of an int that lies in a word that may be used. -/
def AllowsInt (M : Model) (shape : TailShape) (length index : Int32) : Prop :=
  shape.firstWord.toInt * M.intsPerWord ≤ index.toInt ∧
    index.toInt < ((shape.lastWord length).toInt + 1) * M.intsPerWord

end TailShape

/-- A shape whose last word lies before the end, with the ints of its words, is tame. -/
theorem AffineShape.tame_tail {M : Model} {s : AffineShape} (first_nonneg : 0 ≤ s.first.toInt)
    (delta_neg : s.delta.toInt < 0) (ints_eq : s.ints = none) : (s.tail M).Tame M := by
  obtain ⟨first, delta, ints⟩ := s
  cases ints_eq
  refine ⟨first_nonneg, ?_, rfl, fun _ => rfl⟩
  intro length nonneg
  change (length + delta).toInt ≤ length.toInt - 1
  have upper : length.toInt < 2 ^ 31 := Int32.toInt_lt length
  have lower : -2 ^ 31 ≤ delta.toInt := Int32.le_toInt delta
  rw [Int32.toInt_add, Int.bmod_eq_of_le] <;> dsimp only at delta_neg <;> omega

namespace HybridStore

variable (M : Model) {φ : Type}

/-- A step that keeps to tame shapes and to lengths below two to the thirtieth, and that
accesses the heap through hybrids only. -/
def Step.Tame [TailFields M φ] : Step φ → Prop
  | .new fields => (TailFields.shape M fields).Tame M
  | .poke _ _ => False
  | .use _ (.setFields fields) => (TailFields.shape M fields).Tame M
  | .use _ (.expand length) => length.toInt < 2 ^ 30
  | .use _ _ => True

/-- The tails of the hybrids that have been expanded. -/
abbrev Ledger := Nat → Option Tail

namespace Ledger

variable (order : ByteOrder)

/-- The ledger after a step with its answer. Only steps that have not failed count. -/
def record (ledger : Ledger) : Step φ × Except StepError (Answer φ) → Ledger
  | (.use _ (.expand length), .ok (.expanded i _ _ _)) =>
    Function.update ledger i (some (.zeros M length))
  | (.use i (.setWord index pattern), .ok _) =>
    Function.update ledger i
      ((ledger i).map fun t => t.put M order .word index (.ofBits pattern : Word M))
  | (.use i (.setInt index value), .ok _) =>
    Function.update ledger i ((ledger i).map fun t => t.put M order .int index value)
  | _ => ledger

/-- The ledger after some steps with their answers. -/
def replay (transcript : List (Step φ × Except StepError (Answer φ))) : Ledger :=
  transcript.foldl (record M order) fun _ => none

/-- Whether a step with its answer gives a tail to the hybrid with a number, or writes to it. -/
def concerns (i : Nat) : Step φ × Except StepError (Answer φ) → Bool
  | (.use _ (.expand _), .ok (.expanded j _ _ _)) => j = i
  | (.use j (.setWord _ _), .ok _) => j = i
  | (.use j (.setInt _ _), .ok _) => j = i
  | _ => false

/-- The tail of the hybrid with a number, as the steps that concern it determine it. -/
def own (transcript : List (Step φ × Except StepError (Answer φ))) (i : Nat) : Option Tail :=
  replay M order (transcript.filter (concerns i)) i

variable {M order} {ledger ledger' : Ledger} {i : Nat}
  {entry : Step φ × Except StepError (Answer φ)}

/-- A step that does not concern a hybrid keeps its tail. -/
theorem record_of_foreign (foreign : concerns i entry = false) :
    record M order ledger entry i = ledger i := by
  fun_cases record M order ledger entry with
  | case1 => exact Function.update_of_ne (Ne.symm (of_decide_eq_false foreign)) _ _
  | case2 => exact Function.update_of_ne (Ne.symm (of_decide_eq_false foreign)) _ _
  | case3 => exact Function.update_of_ne (Ne.symm (of_decide_eq_false foreign)) _ _
  | case4 => rfl

/-- What a step does to the tail of a hybrid depends on this tail only. -/
theorem record_congr (same : ledger i = ledger' i) :
    record M order ledger entry i = record M order ledger' entry i := by
  have update {j : Nat} {tail tail' : Option Tail} (tails : j = i → tail = tail') :
      Function.update ledger j tail i = Function.update ledger' j tail' i := by
    by_cases here : j = i
    · rw [← here, Function.update_self, Function.update_self, tails here]
    · rw [Function.update_of_ne (Ne.symm here), Function.update_of_ne (Ne.symm here), same]
  rw [record.eq_def, record.eq_def]
  split
  · exact update fun _ => rfl
  · exact update fun here => by rw [here, same]
  · exact update fun here => by rw [here, same]
  · exact same

/-- The ledger keeps for each hybrid the tail that its own steps determine. -/
theorem replay_eq_own (transcript : List (Step φ × Except StepError (Answer φ))) (i : Nat) :
    replay M order transcript i = own M order transcript i := by
  have folds (first second : Ledger) (same : first i = second i) :
      transcript.foldl (record M order) first i =
        (transcript.filter (concerns i)).foldl (record M order) second i := by
    induction transcript generalizing first second with
    | nil => exact same
    | cons entry rest ih =>
        cases mine : concerns i entry with
        | true =>
            rw [List.filter_cons_of_pos mine]
            exact ih _ _ (record_congr same)
        | false =>
            rw [List.filter_cons_of_neg (by rw [mine]; exact Bool.false_ne_true)]
            exact ih _ _ ((record_of_foreign mine).trans same)
  exact folds _ _ rfl

end Ledger

end HybridStore

end MachineWord
