import Mathlib
import MachineWord.Proofs.Host.Pointers

/-!
# Native memory and little regions

A program of a cursor stays within a buffer if every span of bytes that its steps reach, from
wherever the pointer has moved, lies in the buffer (`Cursor.StaysWithin`). Such a program cannot
tell native memory from a little region at the same place: every step gives the same answer, and
the bytes are the same after every step (`native_agrees_with_region`).
-/

set_option autoImplicit false

namespace MachineWord

variable {M : Model}

namespace Agrees

open Cursor

variable {base : BitVec 64} {size : Nat} {b : HostBuffer} {r : Region}

theorem snapshot_eq (agrees : Agrees base size b r) : Block.snapshot b = Block.snapshot r := by
  have whole : Span.Within base size ⟨base.toNat, size⟩ := ⟨Nat.le_refl _, Nat.le_refl _⟩
  change Memory.load b b.base b.size = Memory.load r r.base r.size
  rw [agrees.host_base, agrees.host_size, agrees.base_eq, agrees.size_eq, agrees.load_eq whole]

theorem alike_snapshot (agrees : Agrees base size b r) :
    Access.Alike (Agrees base size) b r (.query Block.snapshot) (.query Block.snapshot) :=
  .query agrees agrees.snapshot_eq

theorem alike_stored {access : Access HostBuffer Unit} {access' : Access Region Unit}
    (alike : Access.Alike (Agrees base size) b r access access') :
    Access.Alike (Agrees base size) b r (stored access) (stored access') :=
  alike.bind fun _ _ _ later => later.alike_snapshot.bind fun _ _ _ last => .pure last _

theorem alike_swapped {access : Access HostBuffer Datum} {access' : Access Region Datum}
    (alike : Access.Alike (Agrees base size) b r access access') :
    Access.Alike (Agrees base size) b r (swapped access) (swapped access') :=
  alike.bind fun _ _ _ later => later.alike_snapshot.bind fun _ _ _ last => .pure last _

variable (agrees : Agrees base size b r)

include agrees

/-- A use of a pointer within the buffer is alike in both memories. -/
theorem alike_access (p : Pointer M) (u : Use) (within : ∀ x ∈ u.spans p, x.Within base size) :
    Access.Alike (Agrees base size) b r (access p u) (access p u) := by
  cases u with
  | read s place =>
      have reached := within _ List.mem_cons_self
      rw [access, access, readAt_eq, readAt_eq]
      exact (agrees.alike_read p reached).bind fun _ _ _ later => .pure later _
  | write s place pattern =>
      have reached := within _ List.mem_cons_self
      rw [access, access, writeAt_eq, writeAt_eq]
      exact alike_stored (agrees.alike_write p reached _)
  | swapInt y expected new =>
      have reached := within _ List.mem_cons_self
      exact alike_swapped ((agrees.alike_swapInt p reached _ _).bind fun _ _ _ later =>
        .pure later _)
  | swapWord view y expected new =>
      have reached := within _ List.mem_cons_self
      exact alike_swapped ((agrees.alike_swapWord p reached _ _).bind fun _ _ _ later =>
        .pure later _)
  | setMapBit bit => exact alike_stored (agrees.alike_orByte p (within _ List.mem_cons_self) _)
  | orMapBits bit mask => exact alike_stored (agrees.alike_orMapBits p within)
  | copy kind displacement first dst target count =>
      rw [access, access]
      exact .query agrees (congrArg Except.ok (agrees.copied_eq p within))
  | snapshot => exact alike_stored (.pure agrees ())
  | dump count =>
      refine .bind (.query agrees ?_) fun _ _ _ later => .pure later _
      rw [Pointer.dump, Pointer.dump, agrees.bytesFrom_eq p within]
  | equals pattern => exact .pure agrees _
  | distinct patterns => exact .pure agrees _
  | loadNat count address =>
      have reached := within _ List.mem_cons_self
      exact .bind (.query agrees (agrees.loadNat_eq reached)) fun _ _ _ later => .pure later _
  | storeNat count address n =>
      exact alike_stored (agrees.alike_storeNat (within _ List.mem_cons_self) n)
  | loadBytes address count =>
      have reached := within _ List.mem_cons_self
      exact .bind (.query agrees (agrees.load_eq reached)) fun _ _ _ later => .pure later _
  | storeBytes address bytes =>
      exact alike_stored (agrees.alike_store (within _ List.mem_cons_self))
  | swapNat kind address expected new =>
      have reached := within _ List.mem_cons_self
      exact alike_swapped ((agrees.alike_swap kind reached _ _).bind fun _ _ _ later => .pure later _)

/-- In a machine of 64 bits a region hands out the same pointers as a buffer. -/
theorem pointer_eq (wide : M.size = .w64) {distance : Nat}
    (fits : base.toNat + distance < UInt64.size) :
    Block.pointer M b distance = Block.pointer M r distance := by
  have mask : M.mask.toNat = 2 ^ 64 - 1 := by
    rw [Model.mask, Model.bits, wide]
    rfl
  have bound := r.stop.isLt
  have whole : ¬ (r.size ≠ 0 ∧ M.mask.toNat < r.stop.toNat - 1) := by omega
  rw [← agrees.base_eq] at fits
  change Except.ok _ = r.pointer M distance
  rw [Region.pointer, if_neg whole, if_neg (by omega), agrees.host_base, agrees.base_eq]

end Agrees

/-! ## Programs -/

namespace Cursor

variable {μ : Type} [Block μ]

/-- A step from a pointer reaches bytes of a buffer only, and jumps to no address beyond the
address space. -/
def Step.Within (base : BitVec 64) (size : Nat) (p : Pointer M) : Step → Prop
  | .use u => ∀ x ∈ u.spans p, x.Within base size
  | .move (.jump distance) => base.toNat + distance < UInt64.size
  | .move _ => True
  | .query _ => True

instance (base : BitVec 64) (size : Nat) (p : Pointer M) : (s : Step) →
    Decidable (s.Within base size p)
  | .use u => inferInstanceAs (Decidable (∀ x ∈ u.spans p, x.Within base size))
  | .move (.jump distance) => inferInstanceAs (Decidable (base.toNat + distance < UInt64.size))
  | .move (.place _) => .isTrue trivial
  | .move (.operate _) => .isTrue trivial
  | .move (.addWords _) => .isTrue trivial
  | .move (.subWords _) => .isTrue trivial
  | .query _ => .isTrue trivial

/-- Every step of a program, from where the run has got to, reaches bytes of a buffer only. -/
def StaysWithin (base : BitVec 64) (size : Nat) (c : Cursor M μ) : List Step → Prop
  | [] => True
  | s :: rest => s.Within base size c.pointer ∧ StaysWithin base size (c.step s).2 rest

instance (base : BitVec 64) (size : Nat) : (c : Cursor M μ) → (program : List Step) →
    Decidable (StaysWithin base size c program)
  | _, [] => .isTrue trivial
  | c, s :: rest =>
    have : Decidable (StaysWithin base size (c.step s).2 rest) :=
      instDecidableStaysWithin base size _ rest
    inferInstanceAs (Decidable (_ ∧ _))

theorem StaysWithin.take {base : BitVec 64} {size : Nat} {c : Cursor M μ} {program : List Step}
    (stays : StaysWithin base size c program) (k : Nat) :
    StaysWithin base size c (program.take k) := by
  induction program generalizing c k with
  | nil => rwa [List.take_nil]
  | cons s rest ih =>
      cases k with
      | zero => trivial
      | succ k => exact ⟨stays.1, ih stays.2 k⟩

/-- Two cursors are at one place of memories that agree. -/
structure Agree (base : BitVec 64) (size : Nat) (c : Cursor M HostBuffer) (c' : Cursor M Region) :
    Prop where
  pointer_eq : c.pointer = c'.pointer
  memory : Agrees base size c.memory c'.memory

namespace Agree

variable {base : BitVec 64} {size : Nat} {c : Cursor M HostBuffer} {c' : Cursor M Region}

/-- A step within the buffer is answered alike, and the cursors agree after it. -/
theorem step (agree : Agree base size c c') (wide : M.size = .w64) {s : Step}
    (within : s.Within base size c.pointer) :
    (c.step s).1 = (c'.step s).1 ∧ Agree base size (c.step s).2 (c'.step s).2 := by
  obtain ⟨memory, pointer⟩ := c
  obtain ⟨memory', pointer'⟩ := c'
  obtain ⟨rfl, agrees⟩ := agree
  cases s with
  | use u =>
      rcases (agrees.alike_access pointer u within).cases with
        ⟨answer, changed, changed', done, done', later⟩ |
        ⟨fault, changed, changed', failed, failed', later⟩
      · simp only [Cursor.step, done, done']
        exact ⟨trivial, rfl, later⟩
      · simp only [Cursor.step, failed, failed']
        exact ⟨trivial, rfl, later⟩
  | move m =>
      -- A jump asks the memory for a pointer; no other move looks at it.
      have same : target memory pointer m = target memory' pointer m := by
        cases m with
        | jump distance =>
            rw [target, target, agrees.pointer_eq wide within]
        | _ => rfl
      simp only [Cursor.step, same]
      cases target memory' pointer m with
      | ok moved => exact ⟨rfl, rfl, agrees⟩
      | error cause => exact ⟨rfl, rfl, agrees⟩
  | query q => exact ⟨rfl, rfl, agrees⟩

theorem run (agree : Agree base size c c') (wide : M.size = .w64) {program : List Step}
    (stays : StaysWithin base size c program) :
    (c.run program).1 = (c'.run program).1 ∧
      Agree base size (c.run program).2 (c'.run program).2 := by
  induction program generalizing c c' with
  | nil => exact ⟨rfl, agree⟩
  | cons s rest ih =>
      obtain ⟨answer, next⟩ := agree.step wide stays.1
      obtain ⟨answers, last⟩ := ih next stays.2
      exact ⟨congrArg₂ List.cons answer answers, last⟩

end Agree

/-- A buffer of zeros agrees with a fresh region. -/
theorem agrees_of_zeros {base : BitVec 64} {size : Nat} {memory : HostMemory} {r : Region}
    (zero : ∀ i < size, memory.byte (base + BitVec.ofNat 64 i) = 0)
    (made : Region.zeros base size .little = .ok r) : Agrees base size ⟨memory, base, size⟩ r where
  host_base := rfl
  host_size := rfl
  base_eq := (Region.fields_of_zeros made).1
  size_eq := (Region.fields_of_zeros made).2.1
  order_eq := (Region.fields_of_zeros made).2.2.1
  byte_eq i inside := by rw [Region.byte_of_zeros made, zero i inside]

end Cursor

namespace Region

/-- There is a region at every multiple of eight, as far as its cells fit into an allocation. -/
theorem exists_zeros_iff {base : BitVec 64} {size : Nat} {order : ByteOrder}
    (aligned : base.toNat % 8 = 0) (below : base.toNat + size < 2 ^ 64) :
    (∃ r, zeros base size order = .ok r) ↔ (size + 7) / 8 * 8 ≤ capacity := by
  have limit : capacity = 2 ^ 63 - 1 := rfl
  have words : UInt64.size = 2 ^ 64 := rfl
  rw [zeros, dif_pos aligned, dif_pos (words ▸ below)]
  constructor
  · rintro ⟨r, made⟩
    split at made
    · cases made
    · split at made
      · cases made
      · omega
  · intro fits
    rw [if_neg (by omega), if_neg (by omega)]
    exact ⟨_, rfl⟩

end Region

/-- **Native memory and a little region agree.** Take a machine of 64 bits, in either mode, and a
buffer of zeros at a multiple of eight, all within the address space. There is a region at the
same place, as far as its cells fit into an allocation, and both hand out the pointer to the first
byte. Every program that stays within the buffer gets the same answers from both, and after each
of its steps the pointers are the same and so are the bytes. -/
theorem native_agrees_with_region (mode : Mode) (base : BitVec 64) (size : Nat)
    (aligned : base.toNat % 8 = 0) (below : base.toNat + size < 2 ^ 64) :
    ((∃ r, Region.zeros base size .little = .ok r) ↔ (size + 7) / 8 * 8 ≤ Region.capacity) ∧
    ∀ r, Region.zeros base size .little = .ok r →
    ∀ memory : HostMemory, (∀ i < size, memory.byte (base + BitVec.ofNat 64 i) = 0) →
    ∃ (native : Cursor ⟨.w64, mode⟩ HostBuffer) (simulated : Cursor ⟨.w64, mode⟩ Region),
      Cursor.start ⟨.w64, mode⟩ ⟨memory, base, size⟩ = .ok native ∧
      Cursor.start ⟨.w64, mode⟩ r = .ok simulated ∧
      native.pointer.address.bits = base ∧
      ∀ program : List Cursor.Step, native.StaysWithin base size program →
        (native.run program).1 = (simulated.run program).1 ∧
        ∀ k, Cursor.Agree base size (native.run (program.take k)).2
          (simulated.run (program.take k)).2 := by
  refine ⟨Region.exists_zeros_iff aligned below, ?_⟩
  intro r made memory zero
  have agrees := Cursor.agrees_of_zeros zero made
  have first : r.pointer ⟨.w64, mode⟩ 0 = .ok ⟨.ofBits (base + 0)⟩ :=
    (agrees.pointer_eq rfl (Nat.lt_of_le_of_lt (Nat.le_add_right _ _) below)).symm
  refine ⟨⟨⟨memory, base, size⟩, ⟨.ofBits (base + 0)⟩⟩, ⟨r, ⟨.ofBits (base + 0)⟩⟩, rfl, ?_, ?_, ?_⟩
  · change (r.pointer ⟨.w64, mode⟩ 0 >>= _) = _
    rw [first]
    rfl
  · rw [Value.bits_ofBits, Model.truncate_eq_setWidth]
    change ((base + 0).setWidth 64).setWidth 64 = base
    rw [BitVec.setWidth_eq, BitVec.setWidth_eq]
    exact BitVec.add_zero base
  · intro program stays
    have agree : Cursor.Agree base size ⟨⟨memory, base, size⟩, ⟨.ofBits (base + 0)⟩⟩
        (⟨r, ⟨.ofBits (base + 0)⟩⟩ : Cursor ⟨.w64, mode⟩ Region) := ⟨rfl, agrees⟩
    exact ⟨(agree.run rfl stays).1, fun k => (agree.run rfl (stays.take k)).2⟩

/-- An unaligned long, swaps of both halves of a cell and of a whole one, bits, a copy and moves,
in a buffer that does not end with a cell. -/
theorem native_agrees_with_region_of_mixed_program :
    let program : List Cursor.Step :=
      [.use (.write .long (.offset (.int 3)) 0x0102030405060708),
        .use (.swapInt (.int 4) 0x05060708 7),
        .use (.swapInt (.int 8) 0x010203 (-1)),
        .move (.addWords 1),
        .use (.swapWord .word (.int (-8)) 0 5),
        .use (.orMapBits 35 0xff),
        .use (.copy (.scalar .short) (-6) 0 [0, 0, 0] 1 2),
        .move (.jump 5),
        .use (.read .char (.element (-1) 2))]
    ∃ r, Region.zeros 0x1000 15 .little = .ok r ∧
      ∃ (native : Cursor .hosted64 HostBuffer) (simulated : Cursor .hosted64 Region),
        Cursor.start .hosted64 (.zeros 0x1000 15) = .ok native ∧
        Cursor.start .hosted64 r = .ok simulated ∧
        (native.run program).1 = (simulated.run program).1 := by
  intro program
  obtain ⟨-, agree⟩ := native_agrees_with_region .hosted 0x1000 15 (by decide) (by decide)
  refine ⟨_, rfl, ?_⟩
  obtain ⟨native, simulated, started, started', -, alike⟩ := agree _ rfl .zeros fun _ _ => rfl
  refine ⟨native, simulated, started, started', (alike program ?_).1⟩
  cases started
  decide

end MachineWord
