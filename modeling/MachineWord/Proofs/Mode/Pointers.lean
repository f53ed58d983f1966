import Mathlib
import MachineWord.Cursor.Datum
import MachineWord.Pointer.BitMap
import MachineWord.Pointer.Copy
import MachineWord.Proofs.Mode.Values

/-!
# Pointers in other modes

A pointer in another mode locates the same addresses, so it reads and writes the same bytes.
What is read is the value in the other mode, and a value in the other mode is written as the
same bytes.
-/

set_option autoImplicit false

namespace MachineWord

variable {s : WordSize} {m : Mode} (n : Mode)

/-! ## Scalars -/

namespace Scalar

/-- The value in another mode. Only words and references are kept in a cell. -/
def inMode : (t : Scalar) → t.Carrier ⟨s, m⟩ → t.Carrier ⟨s, n⟩
  | word, x => Value.inMode n x
  | reference, x => Value.inMode n x
  | boolean, b => b
  | byte, k => k
  | short, k => k
  | char, k => k
  | int, k => k
  | float, p => p
  | long, k => k
  | double, p => p

variable (t : Scalar)

theorem bytes_inMode : t.bytes ⟨s, n⟩ = t.bytes ⟨s, m⟩ := by
  cases t <;> rfl

theorem encode_inMode (x : t.Carrier ⟨s, m⟩) :
    t.encode ⟨s, n⟩ (t.inMode n x) = t.encode ⟨s, m⟩ x := by
  cases t with
  | word => exact congrArg BitVec.toNat (Value.bits_inMode n x)
  | reference => exact congrArg BitVec.toNat (Value.bits_inMode n x)
  | _ => rfl

theorem decode_inMode (code : Nat) :
    t.decode ⟨s, n⟩ code = t.inMode n (t.decode ⟨s, m⟩ code) := by
  cases t with
  | word => exact (Value.inMode_ofBits n _).symm
  | reference => exact (Value.inMode_ofBits n _).symm
  | _ => rfl

theorem ofPattern_inMode (pattern : BitVec 64) :
    t.ofPattern ⟨s, n⟩ pattern = t.inMode n (t.ofPattern ⟨s, m⟩ pattern) := by
  rw [ofPattern, t.bytes_inMode n, t.decode_inMode n, ofPattern]

theorem datum_inMode (x : t.Carrier ⟨s, m⟩) :
    t.datum ⟨s, n⟩ (t.inMode n x) = t.datum ⟨s, m⟩ x := by
  cases t with
  | word => exact congrArg Datum.text (Value.text_inMode n x)
  | reference => exact congrArg Datum.text (Value.text_inMode n x)
  | _ => rfl

end Scalar

/-! ## Typed accesses -/

theorem Value.operand_inMode {v : View} (x : Value ⟨s, m⟩ v) : (x.inMode n).operand = x.operand :=
  congrArg (Operand.word v) (x.bits_inMode n)

namespace Pointer

variable {μ : Type} [Memory μ]

/-- The pointer to the same address in another mode. -/
def inMode (p : Pointer ⟨s, m⟩) : Pointer ⟨s, n⟩ := ⟨p.address.inMode n⟩

variable (p : Pointer ⟨s, m⟩) (t : Scalar) (offset : Offset ⟨s, m⟩)

theorem scaled_inMode (displacement index : Int32) :
    (scaled t displacement index : Offset ⟨s, n⟩) =
      (scaled t displacement index : Offset ⟨s, m⟩).inMode n := by
  have ofInt (k : Int32) : (.ofInt k : Offset ⟨s, n⟩) = (.ofInt k : Offset ⟨s, m⟩).inMode n :=
    (Value.inMode_ofBits n _).symm
  rw [scaled, scaled, t.bytes_inMode n, ofInt, ofInt, Value.mul_inMode, Value.operand_inMode,
    Value.add_inMode]

theorem locate_inMode : (p.inMode n).locate (offset.inMode n) = p.locate offset := by
  rw [locate, Value.operand_inMode, inMode, Value.add_inMode, Value.bits_inMode, locate]

theorem fetch_inMode (memory : μ) :
    (p.inMode n).fetch memory t (offset.inMode n) =
      (p.fetch memory t offset).map (t.inMode n) := by
  rw [fetch, fetch, locate_inMode, t.bytes_inMode n]
  cases Memory.loadNat memory (t.bytes ⟨s, m⟩) (p.locate offset) with
  | ok code => exact congrArg Except.ok (t.decode_inMode n code)
  | error fault => rfl

theorem element_inMode (memory : μ) (displacement index : Int32) :
    (p.inMode n).element memory t displacement index =
      (p.element memory t displacement index).map (t.inMode n) := by
  rw [element, scaled_inMode (m := m), fetch_inMode, element]

theorem read_inMode :
    ((p.inMode n).read t (offset.inMode n) : Access μ _) = t.inMode n <$> p.read t offset := by
  funext memory
  rw [read, Access.query, fetch_inMode]
  change _ = EStateM.map (t.inMode n) (p.read t offset) memory
  rw [EStateM.map, read, Access.query]
  cases p.fetch memory t offset <;> rfl

theorem write_inMode (x : t.Carrier ⟨s, m⟩) :
    ((p.inMode n).write t (offset.inMode n) (t.inMode n x) : Access μ Unit) =
      p.write t offset x := by
  rw [write, locate_inMode, t.bytes_inMode n, t.encode_inMode n, write]

theorem get_inMode (displacement index : Int32) :
    ((p.inMode n).get t displacement index : Access μ _) =
      t.inMode n <$> p.get t displacement index := by
  rw [get, scaled_inMode (m := m), read_inMode, get]

theorem set_inMode (displacement index : Int32) (x : t.Carrier ⟨s, m⟩) :
    ((p.inMode n).set t displacement index (t.inMode n x) : Access μ Unit) =
      p.set t displacement index x := by
  rw [set, scaled_inMode (m := m), write_inMode, set]

/-! ## Swaps -/

theorem swapInt_inMode (expected new : Int32) :
    ((p.inMode n).swapInt (offset.inMode n) expected new : Access μ Int32) =
      p.swapInt offset expected new := by
  rw [swapInt, locate_inMode, swapInt]

theorem swapWord_inMode {v : View} (expected new : Value ⟨s, m⟩ v) :
    ((p.inMode n).swapWord (offset.inMode n) (expected.inMode n) (new.inMode n) : Access μ _) =
      Value.inMode n <$> p.swapWord offset expected new := by
  rw [swapWord, locate_inMode, Value.bits_inMode, Value.bits_inMode, swapWord, map_bind]
  simp only [map_pure, Value.inMode_ofBits]

/-! ## Bit maps -/

theorem orByte_inMode (index : Int32) (mask : BitVec 8) :
    ((p.inMode n).orByte index mask : Access μ Unit) = p.orByte index mask := by
  have held : ((p.inMode n).getAt .byte index : Access μ Int8) = p.getAt .byte index :=
    (p.get_inMode n .byte 0 index).trans (id_map _)
  have kept (k : Int8) : ((p.inMode n).setAt .byte index k : Access μ Unit) =
      p.setAt .byte index k :=
    p.set_inMode n .byte 0 index k
  rw [orByte, orByte, held]
  simp only [kept]

theorem setMapBit_inMode (bit : Nat) :
    ((p.inMode n).setMapBit bit : Access μ Unit) = p.setMapBit bit := by
  rw [setMapBit, orByte_inMode, setMapBit]

theorem orMapBits_inMode (bit : Nat) (mask : BitVec 8) :
    ((p.inMode n).orMapBits bit mask : Access μ Unit) = p.orMapBits bit mask := by
  simp only [orMapBits, orByte_inMode]

/-! ## Copies -/

variable (memory : μ) (displacement first : Int32)

theorem elementFrom_inMode (i : Nat) :
    (p.inMode n).elementFrom memory t displacement first i =
      (p.elementFrom memory t displacement first i).map (t.inMode n) := by
  rw [elementFrom, elementFrom]
  cases exactIndex (first.toInt + (wrapIndex i).toInt) with
  | ok index => exact p.element_inMode n t memory displacement index
  | error fault => rfl

theorem copyFrom_inMode (target i count : Nat) (dst : Array (t.Carrier ⟨s, m⟩)) :
    (p.inMode n).copyFrom memory t displacement first target i count (dst.map (t.inMode n)) =
      ((p.copyFrom memory t displacement first target i count dst).1.map (t.inMode n),
        (p.copyFrom memory t displacement first target i count dst).2) := by
  induction count generalizing i dst with
  | zero => rfl
  | succ count ih =>
      rw [copyFrom, copyFrom, elementFrom_inMode]
      cases p.elementFrom memory t displacement first i with
      | ok value =>
          change (p.inMode n).copyFrom memory t displacement first target (i + 1) count
            ((dst.map (t.inMode n)).setIfInBounds (target + i) (t.inMode n value)) = _
          rw [← Array.map_setIfInBounds, ih]
      | error fault => rfl

theorem copyScalars_inMode (target count : Nat) (dst : Array (t.Carrier ⟨s, m⟩)) :
    (p.inMode n).copyScalars memory t displacement first target count (dst.map (t.inMode n)) =
      ((p.copyScalars memory t displacement first target count dst).1.map (t.inMode n),
        (p.copyScalars memory t displacement first target count dst).2) := by
  rw [copyScalars, copyScalars, Array.size_map]
  split
  · rfl
  · split
    · rfl
    · exact p.copyFrom_inMode n t memory displacement first target 0 count dst

end Pointer

/-! ## Kinds -/

namespace Kind

/-- The value in another mode. -/
def inMode : (k : Kind) → k.Carrier ⟨s, m⟩ → k.Carrier ⟨s, n⟩
  | void, x => x
  | scalar t, x => t.inMode n x

variable (k : Kind)

theorem ofPattern_inMode (pattern : BitVec 64) :
    k.ofPattern ⟨s, n⟩ pattern = k.inMode n (k.ofPattern ⟨s, m⟩ pattern) := by
  cases k with
  | void => rfl
  | scalar t => exact t.ofPattern_inMode n pattern

theorem datum_inMode (x : k.Carrier ⟨s, m⟩) :
    k.datum ⟨s, n⟩ (k.inMode n x) = k.datum ⟨s, m⟩ x := by
  cases k with
  | void => rfl
  | scalar t => exact t.datum_inMode n x

end Kind

namespace Pointer

variable {μ : Type} [Memory μ] (p : Pointer ⟨s, m⟩) (memory : μ)

theorem copyElements_inMode (displacement first : Int32) (target count : Nat) (k : Kind)
    (dst : Array (k.Carrier ⟨s, m⟩)) :
    (p.inMode n).copyElements memory displacement first target count k (dst.map (k.inMode n)) =
      ((p.copyElements memory displacement first target count k dst).1.map (k.inMode n),
        (p.copyElements memory displacement first target count k dst).2) := by
  cases k with
  | void => rfl
  | scalar t =>
      have filled := p.copyScalars_inMode n t memory displacement first target count dst
      exact congrArg (fun (filled, fault) => (filled, Option.map CopyError.fault fault)) filled

/-! ## Dumps -/

theorem bytesFrom_inMode (index count : Nat) :
    (p.inMode n).bytesFrom memory index count = p.bytesFrom memory index count := by
  induction count generalizing index with
  | zero => rfl
  | succ count ih =>
      have held : ((p.inMode n).element memory .byte 0 (wrapIndex index) : Except Fault Int8) =
          p.element memory .byte 0 (wrapIndex index) :=
        (p.element_inMode n .byte memory 0 (wrapIndex index)).trans
          (congrFun Except.map_id _)
      rw [bytesFrom, bytesFrom, held]
      simp only [ih]

theorem dump_inMode (count : Nat) : (p.inMode n).dump memory count = p.dump memory count := by
  have shown : toString (p.inMode n) = toString p :=
    congrArg text (p.address.bits_inMode n)
  rw [dump, dump, shown, bytesFrom_inMode]

end Pointer

end MachineWord
