import Mathlib
import MachineWord.Memory.Entries
import MachineWord.Proofs.Address.Rendering
import MachineWord.Proofs.BitMap.Places
import MachineWord.Proofs.Pointer.Copies

/-!
# Dumps at pointers

A dump loads one byte after another and fails with the fault of the first that cannot be loaded
(`bytesFrom_cases`). Otherwise it shows the pointer, a colon and the entries of the bytes, from
which they are read back (`IsDump.of_bytes`). The number of bytes is taken into an int, so a dump
shows fewer bytes than it is asked for if an int cannot count them (`dumps_show_bytes_iff`).
-/

set_option autoImplicit false

namespace MachineWord

namespace Pointer

variable {M : Model} {μ : Type}

/-! ## Bytes at a pointer -/

/-- The address at a distance from a pointer, modulo the number of words. -/
def ahead (p : Pointer M) (i : Nat) : Nat := (p.address.bits.toNat + i) % 2 ^ M.bits

section Loads

variable [Memory μ] (memory : μ) (p : Pointer M)

/-- The byte at a distance from a pointer, or the fault of loading it. -/
def held (i : Nat) : Except Fault UInt8 :=
  UInt8.ofNat <$> Memory.loadNat memory 1 (BitVec.ofNat 64 (p.ahead i))

theorem ahead_lt (i : Nat) : p.ahead i < 2 ^ 64 :=
  (Nat.mod_lt _ (Nat.two_pow_pos _)).trans_le (Nat.pow_le_pow_right (by decide) M.bits_le)

/-- An index that an int can hold leads to the byte at this distance. -/
theorem byteAddress_eq_ahead {i : Nat} (near : i < 2 ^ 31) :
    p.byteAddress (wrapIndex i) = BitVec.ofNat 64 (p.ahead i) := by
  have reached := p.toNat_byteAddress (wrapIndex i)
  rw [toInt_wrapIndex near] at reached
  apply BitVec.eq_of_toNat_eq
  rw [BitVec.toNat_ofNat, Nat.mod_eq_of_lt (p.ahead_lt i), ahead]
  exact_mod_cast reached

theorem element_byte_eq_held {i : Nat} (near : i < 2 ^ 31) :
    Int8.toUInt8 <$> p.element memory .byte 0 (wrapIndex i) = p.held memory i := by
  rw [held, ← p.byteAddress_eq_ahead near]
  change _ <$> (Memory.loadNat memory 1 (p.byteAddress (wrapIndex i)) >>= _) = _
  cases Memory.loadNat memory 1 (p.byteAddress (wrapIndex i)) <;> rfl

theorem bytesFrom_succ {i : Nat} (near : i < 2 ^ 31) (count : Nat) :
    p.bytesFrom memory i (count + 1) = do
      return (← p.held memory i) :: (← p.bytesFrom memory (i + 1) count) := by
  rw [← p.element_byte_eq_held memory near, bytesFrom]
  cases p.element memory .byte 0 (wrapIndex i) <;> rfl

/-- Bytes are loaded up to the first that cannot be loaded, or all of them are. -/
theorem bytesFrom_cases {i count : Nat} (near : i + count ≤ 2 ^ 31) :
    (∃ k fault, k < count ∧ p.held memory (i + k) = .error fault ∧
      (∀ j < k, ∃ b, p.held memory (i + j) = .ok b) ∧
      p.bytesFrom memory i count = .error fault) ∨
    ∃ bytes, p.bytesFrom memory i count = .ok bytes ∧
      bytes.map .ok = (List.range' i count).map (p.held memory) := by
  induction count generalizing i with
  | zero => exact .inr ⟨[], rfl, rfl⟩
  | succ count ih =>
      rw [p.bytesFrom_succ memory (by omega)]
      cases found : p.held memory i with
      | error fault =>
          exact .inl ⟨0, fault, Nat.succ_pos _, found, fun j early => absurd early j.not_lt_zero,
            rfl⟩
      | ok b =>
          have next (j : Nat) : i + (j + 1) = i + 1 + j := by omega
          rcases ih (i := i + 1) (by omega) with ⟨k, fault, early, failed, before, stopped⟩ |
            ⟨bytes, loaded, all⟩
          · refine .inl ⟨k + 1, fault, by omega, next k ▸ failed, ?_, by rw [stopped]; rfl⟩
            rintro (_ | j) earlier
            · exact ⟨b, found⟩
            · rw [next]
              exact before j (by omega)
          · refine .inr ⟨b :: bytes, by rw [loaded]; rfl, ?_⟩
            rw [List.range'_succ, List.map_cons, List.map_cons, found, all]

end Loads

/-! ## Regions -/

/-- A region holds the bytes that it has, and refuses all others. -/
theorem held_region (p : Pointer M) (r : Region) (i : Nat) :
    p.held r i = if r.Has (p.ahead i) then .ok (r.byte (p.ahead i - r.base.toNat))
      else .error (.outside 1 (p.ahead i) r.base.toNat (r.base.toNat + r.size)) := by
  have number : (BitVec.ofNat 64 (p.ahead i)).toNat = p.ahead i :=
    Nat.mod_eq_of_lt (p.ahead_lt i)
  have inside := r.contains_byte_iff (BitVec.ofNat 64 (p.ahead i))
  rw [number] at inside
  rw [held]
  split
  next has =>
      rw [Region.loadNat_of_contains (inside.2 has), number]
      have single : r.bytesAt (p.ahead i - r.base.toNat) 1 = [r.byte (p.ahead i - r.base.toNat)] :=
        rfl
      rw [single, ByteOrder.decode_singleton]
      exact congrArg Except.ok UInt8.ofNat_toNat
  next lacks =>
      rw [Region.loadNat_of_not_contains (mt inside.1 lacks), number]
      rfl

/-! ## Dumps -/

section Dumps

variable [Memory μ] (memory : μ) (p : Pointer M) {count : Nat}

/-- The dump of a number of bytes at a pointer. It fails with the fault of the first byte that
cannot be loaded. If all bytes are loaded, it shows the pointer, a colon and the entries of the
bytes, and these are read back from it. -/
inductive IsDump (count : Nat) : Except Fault String → Prop where
  | stops {k : Nat} {fault : Fault} (early : k < count)
      (failed : p.held memory k = .error fault)
      (before : ∀ j < k, ∃ b, p.held memory j = .ok b) : IsDump count (.error fault)
  | shows {text : String} {bytes : List UInt8}
      (all : bytes.map .ok = (List.range count).map (p.held memory))
      (entries : text.toList = (toString p).toList ++ ':' :: bytes.flatMap byteEntry)
      (decoded : readDump text = some bytes) : IsDump count (.ok text)

theorem ne_colon_of_mem_toString : ∀ c ∈ (toString p).toList, c ≠ ':' := by
  have printed : (toString p).toList = '^' :: Nat.toDigits 16 p.address.bits.toNat := by
    change ("^" ++ String.ofList _).toList = _
    rw [String.toList_append, String.toList_ofList, String.toList_ofList]
    rfl
  rw [printed]
  rintro c listed rfl
  rcases List.mem_cons.1 listed with marker | digit
  · exact absurd marker (by decide)
  · have value := (Numeral.digitNumber_lt_of_mem_toDigits (by decide) _ _ digit).1
    exact absurd value (by decide)

variable {memory p} in
/-- Bytes that have all been loaded are shown. -/
theorem IsDump.of_bytes {bytes : List UInt8}
    (all : bytes.map .ok = (List.range count).map (p.held memory)) :
    p.IsDump memory count (.ok (toString p ++ ":" ++ dumpBytes bytes)) := by
  have entries : (toString p ++ ":" ++ dumpBytes bytes).toList =
      (toString p).toList ++ ':' :: bytes.flatMap byteEntry := by
    rw [String.toList_append, String.toList_append, toList_dumpBytes, List.append_assoc]
    rfl
  exact .shows all entries (readDump_of_toList p.ne_colon_of_mem_toString entries)

/-- The number of bytes that a dump shows, which is taken into an int. -/
def shownBytes (count : Nat) : Nat := (wrapIndex count).toInt.toNat

theorem shownBytes_lt (count : Nat) : shownBytes count < 2 ^ 31 := by
  have upper := Int32.toInt_lt (wrapIndex count)
  rw [shownBytes]
  omega

theorem shownBytes_eq (near : count < 2 ^ 31) : shownBytes count = count := by
  rw [shownBytes, toInt_wrapIndex near, Int.toNat_natCast]

theorem shownBytes_le (count : Nat) : shownBytes count ≤ count := by
  have wrapped : (wrapIndex count).toInt = (count : Int).bmod (2 ^ 32) := Int32.toInt_ofNat
  rw [shownBytes, wrapped, Int.bmod_def]
  split <;> omega

theorem isDump_dump (count : Nat) : p.IsDump memory (shownBytes count) (p.dump memory count) := by
  have near : 0 + shownBytes count ≤ 2 ^ 31 := by
    have bound := shownBytes_lt count
    omega
  rw [dump]
  rcases p.bytesFrom_cases memory near with
    ⟨k, fault, early, failed, before, stopped⟩ | ⟨bytes, loaded, all⟩
  · simp only [Nat.zero_add] at failed before
    rw [← shownBytes, stopped]
    exact .stops early failed before
  · rw [← shownBytes, loaded]
    rw [← List.range_eq_range'] at all
    exact .of_bytes all

variable {memory p}

/-- A text shows one number of bytes only. -/
theorem IsDump.count_eq {text : String} {other : Nat} (dump : p.IsDump memory count (.ok text))
    (same : p.IsDump memory other (.ok text)) : count = other := by
  obtain _ | ⟨all, -, decoded⟩ := dump
  obtain _ | ⟨all', -, decoded'⟩ := same
  rw [decoded] at decoded'
  cases decoded'
  have length := congrArg List.length (all.symm.trans all')
  simpa using length

/-- A dump that fails is one of more bytes too. -/
theorem IsDump.of_error {fault : Fault} {more : Nat} (dump : p.IsDump memory count (.error fault))
    (le : count ≤ more) : p.IsDump memory more (.error fault) := by
  obtain ⟨early, failed, before⟩ := dump
  exact .stops (early.trans_le le) failed before

/-- A dump fails if one of its bytes cannot be loaded. -/
theorem IsDump.exists_error {outcome : Except Fault String} (dump : p.IsDump memory count outcome)
    {i : Nat} {fault : Fault} (early : i < count) (failed : p.held memory i = .error fault) :
    ∃ cause, outcome = .error cause := by
  cases dump with
  | stops => exact ⟨_, rfl⟩
  | @shows _ bytes all =>
      have listed : p.held memory i ∈ bytes.map Except.ok := by
        rw [all]
        exact List.mem_map_of_mem (List.mem_range.2 early)
      rw [failed] at listed
      simp at listed

/-- An int must count the bytes, unless one of those that are shown cannot be loaded. -/
theorem isDump_dump_iff (memory : μ) (p : Pointer M) (count : Nat) :
    p.IsDump memory count (p.dump memory count) ↔
      count < 2 ^ 31 ∨ ∃ i < shownBytes count, ∃ fault, p.held memory i = .error fault := by
  have done := p.isDump_dump memory count
  constructor
  · intro asked
    cases outcome : p.dump memory count with
    | error fault =>
        rw [outcome] at done
        obtain ⟨early, failed, -⟩ := done
        exact .inr ⟨_, early, fault, failed⟩
    | ok text =>
        rw [outcome] at done asked
        exact .inl (done.count_eq asked ▸ shownBytes_lt count)
  · rintro (near | ⟨i, early, fault, failed⟩)
    · rwa [shownBytes_eq near] at done
    · obtain ⟨cause, stopped⟩ := done.exists_error early failed
      rw [stopped] at done ⊢
      exact done.of_error (shownBytes_le count)

end Dumps

/-- **Dumps show the bytes at a pointer, if an int can count them.** A dump of some bytes fails with
the fault of the first of them that cannot be loaded, or it shows the pointer, a colon and for each
byte a blank and two digits, and the bytes are read back from it. This is so exactly if the number
of bytes is an int, or if one of the bytes that are left of the number as an int cannot be loaded.
In all cases the dump is one of as many bytes as this int counts, and of none if it is negative. A
region refuses the bytes that it does not have. No dump changes the memory. -/
theorem dumps_show_bytes_iff [Block μ] (memory : μ) (p : Pointer M) (count : Nat) :
    p.IsDump memory (shownBytes count) (p.dump memory count) ∧
    (p.IsDump memory count (p.dump memory count) ↔
      count < 2 ^ 31 ∨ ∃ i < shownBytes count, ∃ fault, p.held memory i = .error fault) ∧
    (Cursor.access p (.dump count) : Access μ _).Reads ∧
    ∀ (r : Region) (i : Nat), p.held r i =
      if r.Has (p.ahead i) then .ok (r.byte (p.ahead i - r.base.toNat))
      else .error (.outside 1 (p.ahead i) r.base.toNat (r.base.toNat + r.size)) := by
  refine ⟨p.isDump_dump memory count, isDump_dump_iff memory p count, ?_, p.held_region⟩
  exact (Access.Reads.query _).bind fun _ => .pure _

/-- The last two bytes of a region are shown. A third one is refused. -/
theorem dumps_show_bytes_iff_of_end :
    let p : Pointer .hosted32 := ⟨.ofBits 0x1006⟩
    let r : Region := ⟨0x1000, 8, .little, #[0x0a0b0c0d0e0f1011], by decide, by decide, rfl⟩
    p.IsDump r 2 (.ok "^1006: 0b 0a") ∧
      p.IsDump r 3 (.error (.outside 1 0x1008 0x1000 0x1008)) := by
  intro p r
  have shown : p.dump r 2 = .ok "^1006: 0b 0a" := by unfold p r; cbv
  have refused : p.dump r 3 = .error (.outside 1 0x1008 0x1000 0x1008) := by unfold p r; cbv
  constructor
  · rw [← shown]
    exact (dumps_show_bytes_iff r p 2).2.1.2 (.inl (by decide))
  · rw [← refused]
    exact (dumps_show_bytes_iff r p 3).2.1.2 (.inl (by decide))

/-- A dump of `2 ^ 31` bytes shows none of them, although the region does not have them all. -/
theorem dump_shows_no_bytes :
    let p : Pointer .target64 := ⟨.ofBits 0x1000⟩
    let r : Region := ⟨0x1000, 16, .little, #[0, 0], by decide, by decide, rfl⟩
    p.dump r (2 ^ 31) = .ok "^1000:" ∧ ¬ r.Has (p.ahead 16) ∧
      ¬ p.IsDump r (2 ^ 31) (p.dump r (2 ^ 31)) := by
  intro p r
  have shown : p.dump r (2 ^ 31) = .ok "^1000:" := by unfold p r; cbv
  refine ⟨shown, by decide, fun asked => ?_⟩
  have empty := p.isDump_dump r (2 ^ 31)
  have none : shownBytes (2 ^ 31) = 0 := by decide
  rw [shown] at asked empty
  rw [none] at empty
  exact absurd (empty.count_eq asked) (by decide)

end Pointer

end MachineWord
