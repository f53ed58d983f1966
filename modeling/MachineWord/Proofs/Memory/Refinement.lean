import Mathlib
import MachineWord.Memory.Region.Swap
import MachineWord.Proofs.Memory.Flat

/-!
# A region is a flat row of bytes

The bytes of a region, put at its base, form a flat memory. A call of the region is admitted
exactly if the flat memory admits it, and then both answer alike and change alike
(`refines`). Along a run of calls the region and the flat memory therefore give the
same answers and keep the same bytes (`runCalls_eq_runCalls_flat`), whatever the calls are
and however their spans lie in the cells.
-/

set_option autoImplicit false

namespace MachineWord

open Memory (Call Reply runCalls)

namespace Region

variable (r : Region)

/-- The bytes of a region, placed at its base. -/
def flat : Flat := ⟨r.base.toNat, r.order, r.bytesAt 0 r.size⟩

/-- A region at the same place and in the same order, with the same bytes in its cells beyond
its size. -/
structure Frame (r next : Region) : Prop where
  base_eq : next.base = r.base
  size_eq : next.size = r.size
  order_eq : next.order = r.order
  byte_eq (i : Nat) (beyond : r.size ≤ i) : next.byte i = r.byte i

namespace Frame

theorem refl (r : Region) : Frame r r := ⟨rfl, rfl, rfl, fun _ _ => rfl⟩

theorem trans {r next last : Region} (first : Frame r next) (second : Frame next last) :
    Frame r last where
  base_eq := second.base_eq.trans first.base_eq
  size_eq := second.size_eq.trans first.size_eq
  order_eq := second.order_eq.trans first.order_eq
  byte_eq i beyond :=
    (second.byte_eq i (first.size_eq ▸ beyond)).trans (first.byte_eq i beyond)

end Frame

/-! ## Slices -/

theorem flat_ext {r next : Region} (base_eq : next.base = r.base) (order_eq : next.order = r.order)
    {bytes : List UInt8} (length : bytes.length = next.size)
    (same : ∀ i, i < next.size → next.byte i = bytes.getD i 0) :
    next.flat = ⟨r.base.toNat, r.order, bytes⟩ := by
  have contents : next.bytesAt 0 next.size = bytes := by
    apply List.ext_getElem
    · rw [length_bytesAt, length]
    · intro i hi ho
      rw [length_bytesAt] at hi
      have byte := same i hi
      rw [List.getD_eq_getElem?_getD, List.getElem?_eq_getElem ho, Option.getD_some] at byte
      simpa [bytesAt] using byte
  rw [flat, base_eq, order_eq, contents]

/-- Bytes of a region that has been patched within its size. -/
theorem flat_of_patched {r next : Region} {distance : Nat} {bytes : List UInt8}
    (patched : Patched r distance bytes next) (within_size : distance + bytes.length ≤ r.size) :
    next.flat = ⟨r.base.toNat, r.order, overlay (r.bytesAt 0 r.size) distance bytes⟩ := by
  have fits : distance + bytes.length ≤ (r.bytesAt 0 r.size).length := by rwa [length_bytesAt]
  apply flat_ext patched.base_eq patched.order_eq
  · rw [length_overlay fits, length_bytesAt, patched.size_eq]
  · intro i hi
    rw [patched.size_eq] at hi
    rw [patched.byte_eq, getD_overlay fits, r.getD_bytesAt hi, Nat.zero_add]

theorem frame_of_patched {r next : Region} {distance : Nat} {bytes : List UInt8}
    (patched : Patched r distance bytes next) (within_size : distance + bytes.length ≤ r.size) :
    Frame r next where
  base_eq := patched.base_eq
  size_eq := patched.size_eq
  order_eq := patched.order_eq
  byte_eq _ beyond := patched.byte_of_le (within_size.trans beyond)

variable {r} {address : BitVec 64}

/-- A slice of the flat memory is a run of bytes of the region. -/
theorem slice_flat {count : Nat} (inside : r.contains address count = true) :
    r.flat.slice address.toNat count = r.bytesAt (address.toNat - r.base.toNat) count := by
  obtain ⟨reach, -, -⟩ := reach_of_contains inside
  change ((r.bytesAt 0 r.size).drop (address.toNat - r.base.toNat)).take count = _
  rw [r.take_drop_bytesAt reach, Nat.zero_add]

theorem load_eq_slice {count : Nat} (inside : r.contains address count = true) :
    r.load address count = .ok (r.flat.slice address.toNat count) := by
  rw [load_of_contains inside, slice_flat inside]

theorem store_eq_replace {bytes : List UInt8}
    (inside : r.contains address bytes.length = true) :
    ∃ next, r.store address bytes = .ok next ∧
      next.flat = r.flat.replace address.toNat bytes ∧ Frame r next := by
  obtain ⟨next, stored, patched⟩ := store_of_contains inside
  obtain ⟨reach, -, -⟩ := reach_of_contains inside
  exact ⟨next, stored, flat_of_patched patched reach, frame_of_patched patched reach⟩

theorem swap_eq_replace {size : WordSize} (aligned : address.toNat % size.bytes = 0)
    (inside : r.contains address size.bytes = true) (expected new : BitVec size.bits) :
    ∃ previous next, r.swap size address expected new = .ok (previous, next) ∧
      previous.toNat = r.order.decode (r.flat.slice address.toNat size.bytes) ∧
      next.flat = (if previous.toNat = expected.toNat then
        r.flat.replace address.toNat (r.order.encode size.bytes new.toNat) else r.flat) ∧
      Frame r next := by
  obtain ⟨next, swapped, found, missed⟩ := swap_of_contains aligned inside expected new
  obtain ⟨reach, -, -⟩ := reach_of_contains inside
  refine ⟨_, next, swapped, ?_, ?_⟩
  · rw [toNat_wordAt, slice_flat inside]
  · by_cases same : r.wordAt size (address.toNat - r.base.toNat) = expected
    · have patched := found same
      have length : (r.order.encode size.bytes new.toNat).length = size.bytes :=
        ByteOrder.length_encode _ _ _
      rw [if_pos (congrArg BitVec.toNat same)]
      exact ⟨flat_of_patched patched (by rwa [length]), frame_of_patched patched (by rwa [length])⟩
    · rw [if_neg fun equal => same (BitVec.eq_of_toNat_eq equal), missed same]
      exact ⟨rfl, .refl r⟩

/-- The snapshot of a region is its bytes. -/
theorem snapshot_eq (r : Region) : r.snapshot = .ok (r.bytesAt 0 r.size) := by
  have inside : r.contains r.base r.size = true :=
    (r.contains_iff r.base r.size).2 ⟨Nat.le_refl _, Nat.le_refl _⟩
  rw [snapshot, load_of_contains inside, Nat.sub_self]

/-! ## Calls -/

theorem refusal_of_aligned (r : Region) (call : Call)
    (aligned : (call.span r.base.toNat r.size).1 % call.alignment = 0) :
    r.flat.refusal call = .outside (call.span r.base.toNat r.size).2
      (call.span r.base.toNat r.size).1 r.base.toNat (r.base.toNat + r.size) := by
  unfold Flat.refusal
  simp only [flat, length_bytesAt]
  rw [if_pos aligned]

theorem refusal_of_unaligned (r : Region) (call : Call)
    (unaligned : (call.span r.base.toNat r.size).1 % call.alignment ≠ 0) :
    r.flat.refusal call =
      .unalignedSwap (8 * call.alignment) (call.span r.base.toNat r.size).1 := by
  unfold Flat.refusal
  simp only [flat, length_bytesAt]
  rw [if_neg unaligned]

/-- A call of a region gives what the flat memory answers, or is refused because the flat memory
does not admit it. -/
def Refines (r : Region) (call : Call) : Prop :=
  (call.Admitted r.base.toNat r.size ∧
    ∃ next, r.perform call = .ok ((r.flat.answer call).1, next) ∧
      next.flat = (r.flat.answer call).2 ∧ Frame r next) ∨
  (¬ call.Admitted r.base.toNat r.size ∧ r.perform call = .error (r.flat.refusal call))

section Unaligned

variable {call : Call} {count : Nat} (alignment_eq : call.alignment = 1)
  (span_eq : call.span r.base.toNat r.size = (address.toNat, count))

include alignment_eq span_eq

theorem admitted_iff_contains :
    call.Admitted r.base.toNat r.size ↔ r.contains address count = true := by
  rw [Call.Admitted, span_eq, alignment_eq, r.contains_iff]
  exact and_iff_right (Nat.mod_one _)

theorem refusal_eq_outside :
    r.flat.refusal call =
      .outside count address.toNat r.base.toNat (r.base.toNat + r.size) := by
  rw [refusal_of_aligned r call (by rw [alignment_eq, Nat.mod_one]), span_eq]

/-- A call that loads bytes and makes its reply of them. -/
theorem refines_of_load (reply : List UInt8 → Reply)
    (perform_eq : r.perform call = r.load address count >>= fun bytes => .ok (reply bytes, r))
    (answer_eq : r.flat.answer call = (reply (r.flat.slice address.toNat count), r.flat)) :
    r.Refines call := by
  have admitted_iff := admitted_iff_contains alignment_eq span_eq
  by_cases inside : r.contains address count = true
  · left
    refine ⟨admitted_iff.2 inside, r, ?_, ?_, .refl r⟩
    · rw [perform_eq, answer_eq, load_eq_slice inside]
      rfl
    · rw [answer_eq]
  · right
    refine ⟨mt admitted_iff.1 inside, ?_⟩
    rw [perform_eq, load_of_not_contains inside, refusal_eq_outside alignment_eq span_eq]
    rfl

/-- A call that stores bytes. -/
theorem refines_of_store {bytes : List UInt8} (length_eq : bytes.length = count)
    (perform_eq : r.perform call = r.store address bytes >>= fun next => .ok (.done, next))
    (answer_eq : r.flat.answer call = (.done, r.flat.replace address.toNat bytes)) :
    r.Refines call := by
  have admitted_iff := admitted_iff_contains alignment_eq span_eq
  rw [← length_eq] at admitted_iff
  by_cases inside : r.contains address bytes.length = true
  · left
    obtain ⟨next, stored, replaced, frame⟩ := store_eq_replace inside
    refine ⟨admitted_iff.2 inside, next, ?_, ?_, frame⟩
    · rw [perform_eq, answer_eq, stored]
      rfl
    · rw [answer_eq, replaced]
  · right
    refine ⟨mt admitted_iff.1 inside, ?_⟩
    rw [perform_eq, store_of_not_contains inside, refusal_eq_outside alignment_eq span_eq,
      length_eq]
    rfl

end Unaligned

theorem refines_swap (r : Region) (size : WordSize) (address : BitVec 64)
    (expected new : BitVec size.bits) : r.Refines (.swap size address expected new) := by
  by_cases aligned : address.toNat % size.bytes = 0
  · by_cases inside : r.contains address size.bytes = true
    · left
      obtain ⟨previous, next, swapped, held, replaced, frame⟩ :=
        swap_eq_replace aligned inside expected new
      refine ⟨⟨aligned, (r.contains_iff _ _).1 inside⟩, next, ?_, ?_, frame⟩
      · change (r.swap size address expected new >>= _) = _
        rw [swapped]
        exact congrArg (fun n => Except.ok (Reply.number n, next)) held
      · rw [replaced, held]
        rfl
    · right
      refine ⟨fun admitted => inside ((r.contains_iff _ _).2 admitted.2), ?_⟩
      change (r.swap size address expected new >>= _) = _
      rw [swap_of_not_contains aligned inside,
        refusal_of_aligned r (.swap size address expected new) aligned]
      rfl
  · right
    refine ⟨fun admitted => aligned admitted.1, ?_⟩
    change (r.swap size address expected new >>= _) = _
    rw [swap_of_unaligned aligned,
      refusal_of_unaligned r (.swap size address expected new) aligned]
    exact congrArg (fun bits => Except.error (Fault.unalignedSwap bits address.toNat))
      size.bits_eq

theorem refines (r : Region) (call : Call) : r.Refines call := by
  cases call with
  | load address count => exact refines_of_load rfl rfl .bytes rfl rfl
  | store address bytes => exact refines_of_store rfl rfl rfl rfl rfl
  | read width address =>
      refine refines_of_load rfl rfl (fun bytes => .number (r.order.decode bytes)) ?_ rfl
      change ((r.load address width.bytes >>= _) >>= _) = _
      cases r.load address width.bytes <;> rfl
  | write width address value =>
      exact refines_of_store rfl rfl (ByteOrder.length_encode _ _ _) rfl rfl
  | swap size address expected new => exact refines_swap r size address expected new
  | snapshot =>
      have inside : r.contains r.base r.size = true :=
        (r.contains_iff r.base r.size).2 ⟨Nat.le_refl _, Nat.le_refl _⟩
      refine refines_of_load rfl rfl .bytes rfl ?_
      rw [slice_flat inside, Nat.sub_self]
      rfl

/-! ## Runs -/

/-- Along a run of calls a region and its flat memory answer alike and keep the same bytes. -/
theorem runCalls_eq_runCalls_flat (calls : List Call) (r : Region) :
    (runCalls perform r calls).1 = (runCalls Flat.perform r.flat calls).1 ∧
      (runCalls perform r calls).2.flat = (runCalls Flat.perform r.flat calls).2 ∧
      Frame r (runCalls perform r calls).2 := by
  induction calls generalizing r with
  | nil => exact ⟨rfl, rfl, .refl r⟩
  | cons call rest ih =>
      have admits : call.Admitted r.flat.base r.flat.bytes.length ↔
          call.Admitted r.base.toNat r.size := by
        rw [flat, length_bytesAt]
      rcases r.refines call with ⟨admitted, next, performed, same, frame⟩ | ⟨refused, failed⟩
      · obtain ⟨replies, bytes, later⟩ := ih next
        simp only [runCalls, performed, Flat.perform, if_pos (admits.2 admitted), ← same]
        exact ⟨congrArg _ replies, bytes, frame.trans later⟩
      · obtain ⟨replies, bytes, later⟩ := ih r
        simp only [runCalls, failed, Flat.perform, if_neg (mt admits.1 refused)]
        exact ⟨congrArg _ replies, bytes, later⟩

/-! ## Fresh regions -/

theorem fields_of_zeros {base : BitVec 64} {size : Nat} {order : ByteOrder}
    (made : zeros base size order = .ok r) :
    r.base = base ∧ r.size = size ∧ r.order = order ∧
      r.cells = Array.replicate ((size + 7) / 8) 0 := by
  unfold zeros at made
  split at made
  · split at made
    · split at made
      · cases made
      · split at made
        · cases made
        · cases made
          exact ⟨rfl, rfl, rfl, rfl⟩
    · cases made
  · cases made

/-- All bytes of a fresh region are zero, in its cells beyond its size as well. -/
theorem byte_of_zeros {base : BitVec 64} {size : Nat} {order : ByteOrder}
    (made : zeros base size order = .ok r) (i : Nat) : r.byte i = 0 := by
  obtain ⟨-, -, -, cells⟩ := fields_of_zeros made
  have zero (n : Nat) : (Array.replicate n (0 : BitVec 64)).getD (i / 8) 0 = 0 := by
    rw [Array.getD_eq_getD_getElem?, Array.getElem?_replicate]
    split <;> rfl
  have cell : cellBytes 0 = List.replicate 8 0 := rfl
  rw [byte, cells, zero, cell, List.getD_eq_getElem?_getD, List.getElem?_replicate]
  split <;> rfl

theorem flat_of_zeros {base : BitVec 64} {size : Nat} {order : ByteOrder}
    (made : zeros base size order = .ok r) :
    r.flat = ⟨base.toNat, order, List.replicate size 0⟩ := by
  obtain ⟨base_eq, size_eq, order_eq, -⟩ := fields_of_zeros made
  have same (i : Nat) (hi : i < r.size) : r.byte i = (List.replicate size 0).getD i 0 := by
    rw [byte_of_zeros made, List.getD_eq_getElem?_getD, List.getElem?_replicate,
      if_pos (size_eq ▸ hi)]
    rfl
  rw [flat_ext rfl rfl (by rw [List.length_replicate, size_eq]) same, base_eq, order_eq]

/-- **A region refines a flat row of bytes.** From a fresh region of any size and order, every
sequence of calls answers as it does on a list of zeros placed at the base, and leaves the
bytes of that list. The next call is refused exactly if its address is not aligned or its span
does not lie in the region, over unbounded numbers. A refused call changes nothing, and no
index, range or sum inside a call ever fails. Bytes beyond the size stay zero. -/
theorem calls_refine_flat {base : BitVec 64} {size : Nat} {order : ByteOrder}
    (made : zeros base size order = .ok r) (calls : List Call) :
    (runCalls perform r calls).1 =
        (runCalls Flat.perform ⟨base.toNat, order, List.replicate size 0⟩ calls).1 ∧
      (runCalls perform r calls).2.flat =
        (runCalls Flat.perform ⟨base.toNat, order, List.replicate size 0⟩ calls).2 ∧
      (∀ call, (∃ fault, (runCalls perform r calls).2.perform call = .error fault) ↔
        ¬ call.Admitted base.toNat size) ∧
      (∀ call fault, (runCalls perform r calls).2.perform call = .error fault →
        fault ≠ .sliceRange ∧ fault ≠ .overflow ∧
          (runCalls perform r (calls ++ [call])).2 = (runCalls perform r calls).2) ∧
      ∀ i, size ≤ i → (runCalls perform r calls).2.byte i = 0 := by
  obtain ⟨base_eq, size_eq, -, -⟩ := fields_of_zeros made
  obtain ⟨replies, bytes, frame⟩ := runCalls_eq_runCalls_flat calls r
  rw [flat_of_zeros made] at replies bytes
  generalize last_eq : (runCalls perform r calls).2 = last at bytes frame ⊢
  have cases (call : Call) : (call.Admitted base.toNat size ∧
      ∃ result, last.perform call = .ok result) ∨
      (¬ call.Admitted base.toNat size ∧ last.perform call = .error (last.flat.refusal call)) := by
    rw [← base_eq, ← size_eq, ← frame.base_eq, ← frame.size_eq]
    rcases last.refines call with ⟨admitted, next, performed, -⟩ | refused
    · exact .inl ⟨admitted, _, performed⟩
    · exact .inr refused
  refine ⟨replies, bytes, ?_, ?_, ?_⟩
  · intro call
    rcases cases call with ⟨admitted, result, performed⟩ | ⟨refused, failed⟩
    · rw [performed]
      exact ⟨nofun, fun refused => absurd admitted refused⟩
    · exact ⟨fun _ => refused, fun _ => ⟨_, failed⟩⟩
  · intro call fault failed
    have unchanged : (runCalls perform r (calls ++ [call])).2 = last := by
      rw [Memory.runCalls_append_snd, last_eq]
      simp only [runCalls, failed]
    rcases cases call with ⟨-, result, performed⟩ | ⟨-, refused⟩
    · rw [performed] at failed
      cases failed
    · rw [refused] at failed
      cases failed
      exact ⟨last.flat.refusal_ne_sliceRange call, last.flat.refusal_ne_overflow call, unchanged⟩
  · intro i beyond
    rw [frame.byte_eq i (size_eq ▸ beyond), byte_of_zeros made]

/-- A region whose last cell is not full, with spans across cells, a swap of half a cell, a
swap that is not aligned and a store that does not fit. -/
theorem calls_refine_flat_of_thirteen : ∃ r, zeros 0x1000 13 .big = .ok r ∧
    (runCalls perform r [.store 0x1003 [1, 2, 3, 4, 5, 6, 7, 8, 9, 10], .read .bits32 0x1006,
      .swap .w32 0x1008 0x06070809 0xff, .swap .w64 0x1004 0 1, .store 0x100c [1, 2],
      .load 0x1004 9]).1 =
    [.ok .done, .ok (.number 0x04050607), .ok (.number 0x06070809),
      .error (.unalignedSwap 64 0x1004), .error (.outside 2 0x100c 0x1000 0x100d),
      .ok (.bytes [2, 3, 4, 5, 0, 0, 0, 0xff, 10])] :=
  ⟨_, rfl, (calls_refine_flat (show zeros 0x1000 13 .big = .ok _ from rfl) _).1.trans
    (by decide)⟩

end Region

end MachineWord
