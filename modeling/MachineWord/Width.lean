/-!
# Width categories

Storage comes in pieces of 8, 16, 32 and 64 bits. A width category names one of these pieces.
Categories order by their number of bits, `ofBits?` finds the category with exactly a given
number of bits, and `narrowest?` the least one that has room for a given number of bits
(`narrowest?_eq_some_iff`).
-/

set_option autoImplicit false

namespace MachineWord

/-- A number of bits for which storage comes in one piece. -/
inductive Width where
  | bits8
  | bits16
  | bits32
  | bits64
  deriving DecidableEq, Repr

namespace Width

/-- The number of bits of a category. -/
def bits : Width → Nat
  | bits8 => 8
  | bits16 => 16
  | bits32 => 32
  | bits64 => 64

/-- The number of bytes of a category. -/
def bytes (w : Width) : Nat := w.bits / 8

/-- All categories, narrowest first. -/
def all : List Width := [bits8, bits16, bits32, bits64]

theorem mem_all (w : Width) : w ∈ all := by cases w <;> decide

/-- The category with exactly `n` bits. -/
def ofBits? (n : Nat) : Option Width := all.find? fun w => w.bits == n

/-- The narrowest category with room for `n` bits. -/
def narrowest? (n : Nat) : Option Width := all.find? fun w => n ≤ w.bits

instance : Ord Width where
  compare a b := compare a.bits b.bits

/-- The name of a category. -/
def name : Width → String
  | bits8 => "Bits8"
  | bits16 => "Bits16"
  | bits32 => "Bits32"
  | bits64 => "Bits64"

instance : ToString Width where
  toString w := s!"{w.bits} bits"

theorem bits_injective {a b : Width} (h : a.bits = b.bits) : a = b := by
  cases a <;> cases b <;> first | rfl | exact absurd h (by decide)

theorem ofBits?_eq_some_iff {n : Nat} {w : Width} : ofBits? n = some w ↔ w.bits = n := by
  constructor
  · intro h
    simpa using List.find?_some h
  · rintro rfl
    cases w <;> rfl

/-- The category found has room, and no narrower category has. -/
theorem narrowest?_eq_some_iff {n : Nat} {w : Width} :
    narrowest? n = some w ↔ n ≤ w.bits ∧ ∀ u : Width, n ≤ u.bits → w.bits ≤ u.bits := by
  have split : n ≤ 8 ∨ (8 < n ∧ n ≤ 16) ∨ (16 < n ∧ n ≤ 32) ∨ (32 < n ∧ n ≤ 64) ∨ 64 < n := by
    omega
  have forall_width (P : Width → Prop) :
      (∀ u, P u) ↔ P bits8 ∧ P bits16 ∧ P bits32 ∧ P bits64 :=
    ⟨fun h => ⟨h _, h _, h _, h _⟩, fun h u => by cases u <;> simp [h]⟩
  rw [forall_width]
  rcases split with h | h | h | h | h <;> cases w <;>
    simp [narrowest?, all, List.find?, bits] <;> grind

end Width

end MachineWord
