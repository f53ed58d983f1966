import MachineWord.Memory.Region

/-!
# Calls, and a flat row of bytes

A call accesses a memory at a 64 bit address: it loads or stores bytes, reads or writes a
number, swaps a word, or asks for all bytes. A call that fails leaves the memory as it is.

A flat memory is a list of bytes placed at a natural number, so that no address in it
overflows. It admits a call if the address is a multiple of the number of bytes swapped and
the span of the call lies between its ends. An admitted call answers and replaces a slice of
the list.
-/

set_option autoImplicit false

namespace MachineWord

namespace Memory

/-- An access to the bytes of a memory. -/
inductive Call where
  | load (address : BitVec 64) (count : Nat)
  | store (address : BitVec 64) (bytes : List UInt8)
  | read (width : Width) (address : BitVec 64)
  | write (width : Width) (address : BitVec 64) (value : BitVec width.bits)
  | swap (size : WordSize) (address : BitVec 64) (expected new : BitVec size.bits)
  | snapshot

/-- The answer of a call. -/
inductive Reply where
  | done
  | bytes (bytes : List UInt8)
  | number (n : Nat)
  deriving DecidableEq

/-- The answers of some calls and the memory after them. -/
def runCalls {μ : Type} (perform : μ → Call → Except Fault (Reply × μ)) (memory : μ) :
    List Call → List (Except Fault Reply) × μ
  | [] => ([], memory)
  | call :: rest =>
    match perform memory call with
    | .ok (reply, next) =>
      let (replies, last) := runCalls perform next rest
      (.ok reply :: replies, last)
    | .error fault =>
      let (replies, last) := runCalls perform memory rest
      (.error fault :: replies, last)

theorem runCalls_append_snd {μ : Type} (perform : μ → Call → Except Fault (Reply × μ))
    (memory : μ) (first second : List Call) :
    (runCalls perform memory (first ++ second)).2 =
      (runCalls perform (runCalls perform memory first).2 second).2 := by
  induction first generalizing memory with
  | nil => rfl
  | cons call rest ih =>
      cases performed : perform memory call with
      | ok result => simp only [List.cons_append, runCalls, performed, ih result.2]
      | error fault => simp only [List.cons_append, runCalls, performed, ih memory]

namespace Call

/-- The first address and the number of bytes that a call accesses, in a memory of some bytes
at a base. -/
def span (base size : Nat) : Call → Nat × Nat
  | load address count => (address.toNat, count)
  | store address bytes => (address.toNat, bytes.length)
  | read width address => (address.toNat, width.bytes)
  | write width address _ => (address.toNat, width.bytes)
  | swap word address _ _ => (address.toNat, word.bytes)
  | snapshot => (base, size)

/-- The number of which the address of a call has to be a multiple. -/
def alignment : Call → Nat
  | swap word _ _ _ => word.bytes
  | _ => 1

/-- The address of the call is aligned, and its span lies in a memory of some bytes at a
base. -/
def Admitted (base size : Nat) (call : Call) : Prop :=
  (call.span base size).1 % call.alignment = 0 ∧ base ≤ (call.span base size).1 ∧
    (call.span base size).1 + (call.span base size).2 ≤ base + size

instance (base size : Nat) (call : Call) : Decidable (call.Admitted base size) :=
  inferInstanceAs (Decidable (_ ∧ _ ∧ _))

end Call

end Memory

open Memory (Call Reply)

/-- A call of a region. -/
def Region.perform (r : Region) : Call → Except Fault (Reply × Region)
  | .load address count => do return (.bytes (← Memory.load r address count), r)
  | .store address bytes => do return (.done, ← Memory.store r address bytes)
  | .read width address => do return (.number (← Memory.loadNat r width.bytes address), r)
  | .write width address value => do
    return (.done, ← Memory.storeNat r width.bytes address value.toNat)
  | .swap size address expected new => do
    let (previous, next) ← Memory.swap r size address expected new
    return (.number previous.toNat, next)
  | .snapshot => do return (.bytes (← r.snapshot), r)

/-- A list of bytes placed at a base. -/
structure Flat where
  base : Nat
  order : ByteOrder
  bytes : List UInt8
  deriving DecidableEq

namespace Flat

variable (m : Flat)

/-- A number of bytes at an address. -/
def slice (address count : Nat) : List UInt8 := (m.bytes.drop (address - m.base)).take count

/-- The memory with other bytes in the place of those at an address. -/
def replace (address : Nat) (part : List UInt8) : Flat :=
  { m with
    bytes := m.bytes.take (address - m.base) ++ part ++
      m.bytes.drop (address - m.base + part.length) }

/-- The answer of an admitted call and the memory after it. -/
def answer : Call → Reply × Flat
  | .load address count => (.bytes (m.slice address.toNat count), m)
  | .store address bytes => (.done, m.replace address.toNat bytes)
  | .read width address => (.number (m.order.decode (m.slice address.toNat width.bytes)), m)
  | .write width address value =>
    (.done, m.replace address.toNat (m.order.encode width.bytes value.toNat))
  | .swap size address expected new =>
    let previous := m.order.decode (m.slice address.toNat size.bytes)
    (.number previous,
      if previous = expected.toNat then
        m.replace address.toNat (m.order.encode size.bytes new.toNat)
      else m)
  | .snapshot => (.bytes m.bytes, m)

/-- The fault of a call that is not admitted. -/
def refusal (call : Call) : Fault :=
  let (address, count) := call.span m.base m.bytes.length
  if address % call.alignment = 0 then
    .outside count address m.base (m.base + m.bytes.length)
  else .unalignedSwap (8 * call.alignment) address

theorem refusal_ne_sliceRange (call : Call) : m.refusal call ≠ .sliceRange := by
  unfold refusal
  dsimp only
  split <;> exact nofun

theorem refusal_ne_overflow (call : Call) : m.refusal call ≠ .overflow := by
  unfold refusal
  dsimp only
  split <;> exact nofun

/-- A call of a flat memory. -/
def perform (call : Call) : Except Fault (Reply × Flat) :=
  if call.Admitted m.base m.bytes.length then .ok (m.answer call) else .error (m.refusal call)

end Flat

end MachineWord
