import MachineWord.Memory.Related

/-!
# Fences

A fence around some bytes makes a memory of which no other byte can be reached: an access to bytes
that do not all lie inside is refused, whether it reads or writes. An access that does the same
behind a fence as without it therefore neither reads nor writes a byte outside
(`Access.ReachesOnly`).
-/

set_option autoImplicit false

namespace MachineWord

/-- A memory of which only the bytes at some addresses can be reached. -/
structure Fenced (μ : Type) where
  memory : μ
  addresses : List Nat

namespace Fenced

variable {μ : Type}

/-- Bytes at an address that all lie inside a fence. -/
def Encloses (addresses : List Nat) (address : BitVec 64) (count : Nat) : Prop :=
  ∀ i < count, (address + BitVec.ofNat 64 i).toNat ∈ addresses

instance (addresses : List Nat) (address : BitVec 64) (count : Nat) :
    Decidable (Encloses addresses address count) :=
  inferInstanceAs (Decidable (∀ i < count, _))

/-- What is done with bytes inside the fence. Other bytes are refused, as bytes outside of an empty
range. -/
def guard {α : Type} (f : Fenced μ) (address : BitVec 64) (count : Nat) (access : Except Fault α) :
    Except Fault α :=
  if Encloses f.addresses address count then access else .error (.outside count address.toNat 0 0)

instance [Memory μ] : Memory (Fenced μ) where
  order f := Memory.order f.memory
  load f address count := f.guard address count (Memory.load f.memory address count)
  store f address bytes := f.guard address bytes.length do
    return { f with memory := ← Memory.store f.memory address bytes }
  swap f size address expected new := f.guard address size.bytes do
    let (previous, memory) ← Memory.swap f.memory size address expected new
    return (previous, { f with memory })

/-- A memory and the same memory behind a fence around some bytes. -/
def Around (addresses : List Nat) (memory : μ) (f : Fenced μ) : Prop := f = ⟨memory, addresses⟩

theorem around (addresses : List Nat) (memory : μ) :
    Around addresses memory ⟨memory, addresses⟩ := rfl

end Fenced

namespace Access

variable {α : Type}

/-- An access that reaches no bytes but some: in every memory it does the same behind a fence
around them. -/
def ReachesOnly (addresses : List Nat) (access : (μ : Type) → [Memory μ] → Access μ α) : Prop :=
  ∀ (μ : Type) [Memory μ] (memory : μ),
    Alike (Fenced.Around addresses) memory ⟨memory, addresses⟩ (access μ) (access (Fenced μ))

end Access

namespace Fenced

variable {μ : Type} [Memory μ] {addresses : List Nat} {memory : μ} {address : BitVec 64}
  {count : Nat}

theorem loadNat_eq (inside : Encloses addresses address count) :
    Memory.loadNat (⟨memory, addresses⟩ : Fenced μ) count address =
      Memory.loadNat memory count address := by
  have loaded : Memory.load (⟨memory, addresses⟩ : Fenced μ) address count =
      Memory.load memory address count := if_pos inside
  rw [Memory.loadNat, loaded]
  rfl

theorem storeNat_eq (inside : Encloses addresses address count) (n : Nat) :
    Memory.storeNat (⟨memory, addresses⟩ : Fenced μ) count address n =
      (Memory.storeNat memory count address n).map fun changed => ⟨changed, addresses⟩ := by
  have span : Encloses addresses address ((Memory.order memory).encode count n).length := by
    rwa [ByteOrder.length_encode]
  refine (if_pos span).trans ?_
  rw [Memory.storeNat]
  cases Memory.store memory address ((Memory.order memory).encode count n) <;> rfl

theorem alike_storeNat (inside : Encloses addresses address count) (n : Nat) :
    Access.Alike (Around addresses) memory ⟨memory, addresses⟩
      (.update fun m => Memory.storeNat m count address n)
      (.update fun f => Memory.storeNat f count address n) := by
  have stored : Memory.storeNat (⟨memory, addresses⟩ : Fenced μ) count address n = _ :=
    storeNat_eq inside n
  cases made : Memory.storeNat memory count address n with
  | ok changed =>
      rw [made] at stored
      exact .of_ok (Access.update_of_ok made) (Access.update_of_ok stored) (around _ _)
  | error fault =>
      rw [made] at stored
      exact .of_error (Access.update_of_error made) (Access.update_of_error stored) (around _ _)

end Fenced

end MachineWord
