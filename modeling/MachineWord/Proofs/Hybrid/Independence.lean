import Mathlib
import MachineWord.Hybrid.Affine
import MachineWord.Proofs.Hybrid.Elements
import MachineWord.Proofs.Hybrid.Uses

/-!
# Tails do not affect each other

Along a program over one bump heap, every expanded hybrid keeps the tail that the ledger has
for it. The invariant says where the tails lie: below the address of the next tail, apart from
each other, with zeros behind them. A step touches the bytes of one tail only
(`invariant_step`), so the invariant holds after every program (`invariant_run`), and each
hybrid answers what its own writes determine (`tails_independent`).
-/

set_option autoImplicit false

namespace MachineWord

namespace HybridStore

open BumpHeap (Fits Holds Within tailStop tailBytes lengthWord)

variable {M : Model} {φ : Type}

/-- The origin of the tail of the hybrid with a number, if it has been expanded. -/
def origin? (store : HybridStore M φ) (i : Nat) : Option (Reference M) :=
  store.hybrids[i]?.bind Hybrid.origin

/-- The hybrid with a number has a tail, which the ledger knows. -/
structure Keeps (ledger : Ledger) (store : HybridStore M φ) (i : Nat) (origin : Reference M)
    (tail : Tail) : Prop where
  ledger_eq : ledger i = some tail
  origin_eq : store.origin? i = some origin

/-- Two tails have no byte in common. -/
def Apart (origin : Reference M) (tail : Tail) (other : Reference M) (tail' : Tail) : Prop :=
  tailStop origin tail.length ≤ other.bits.toNat ∨ tailStop other tail'.length ≤ origin.bits.toNat

theorem origin?_of_made {store : HybridStore M φ} {i : Nat} {h : Hybrid M φ}
    (made : store.hybrids[i]? = some h) : store.origin? i = h.origin := by
  rw [origin?, made]
  rfl

theorem origin?_push (store : HybridStore M φ) (heap : BumpHeap) (h : Hybrid M φ) (i : Nat) :
    origin? ⟨heap, store.hybrids.push h⟩ i =
      if i = store.hybrids.size then h.origin else store.origin? i := by
  rw [origin?, origin?, Array.getElem?_push]
  split <;> rfl

variable [TailFields M φ]

/-- The tails of the ledger lie in the heap, one apart from the other. -/
structure Invariant (fresh : Region) (ledger : Ledger) (store : HybridStore M φ) : Prop where
  base_eq : store.heap.region.base = fresh.base
  size_eq : store.heap.region.size = fresh.size
  order_eq : store.heap.region.order = fresh.order
  fits : store.heap.Fits M
  unused (i : Nat) (beyond : store.heap.next.toNat ≤ store.heap.region.base.toNat + i) :
    store.heap.region.byte i = 0
  tame (i : Nat) (h : Hybrid M φ) (made : store.hybrids[i]? = some h) : h.shape.Tame M
  expanded (i : Nat) : (ledger i).isSome = (store.origin? i).isSome
  holds (i : Nat) (origin : Reference M) (tail : Tail) (keeps : Keeps ledger store i origin tail) :
    store.heap.Holds origin tail
  apart (i j : Nat) (distinct : i ≠ j) (origin other : Reference M) (tail tail' : Tail)
    (keeps : Keeps ledger store i origin tail) (keeps' : Keeps ledger store j other tail') :
    Apart origin tail other tail'

namespace Invariant

variable {fresh : Region} {ledger : Ledger} {store : HybridStore M φ}

/-! ## Hybrids without effect on the heap -/

/-- Hybrids may be added or changed as long as no tail comes or goes. -/
theorem of_hybrids {last : HybridStore M φ} (inv : Invariant fresh ledger store)
    (heap_eq : last.heap = store.heap) (origins : ∀ i, last.origin? i = store.origin? i)
    (tame : ∀ (i : Nat) (h : Hybrid M φ), last.hybrids[i]? = some h → h.shape.Tame M) :
    Invariant fresh ledger last := by
  have keeps_iff (i : Nat) (origin : Reference M) (tail : Tail)
      (keeps : Keeps ledger last i origin tail) : Keeps ledger store i origin tail :=
    ⟨keeps.ledger_eq, (origins i).symm.trans keeps.origin_eq⟩
  constructor
  · rw [heap_eq, inv.base_eq]
  · rw [heap_eq, inv.size_eq]
  · rw [heap_eq, inv.order_eq]
  · rw [heap_eq]
    exact inv.fits
  · rw [heap_eq]
    exact inv.unused
  · exact tame
  · intro i
    rw [origins, inv.expanded]
  · intro i origin tail keeps
    rw [heap_eq]
    exact inv.holds i origin tail (keeps_iff i origin tail keeps)
  · intro i j distinct origin other tail tail' keeps keeps'
    exact inv.apart i j distinct origin other tail tail' (keeps_iff i origin tail keeps)
      (keeps_iff j other tail' keeps')

theorem push {h : Hybrid M φ} (inv : Invariant fresh ledger store) (unexpanded : h.origin = none)
    (tame : h.shape.Tame M) :
    Invariant fresh ledger { store with hybrids := store.hybrids.push h } := by
  refine inv.of_hybrids rfl ?_ ?_
  · intro i
    rw [origin?_push]
    split
    · rename_i last
      rw [unexpanded, last, origin?, Array.getElem?_size]
      rfl
    · rfl
  · intro i made found
    rw [Array.getElem?_push] at found
    split at found
    · cases found
      exact tame
    · exact inv.tame i made found

theorem put {i : Nat} {h changed : Hybrid M φ} (inv : Invariant fresh ledger store)
    (made : store.hybrids[i]? = some h) (same : changed.origin = h.origin)
    (tame : changed.shape.Tame M) :
    Invariant fresh ledger { store with hybrids := store.hybrids.setIfInBounds i changed } := by
  have inside : i < store.hybrids.size := (Array.getElem?_eq_some_iff.1 made).1
  refine inv.of_hybrids rfl ?_ ?_
  · intro j
    rw [origin?, origin?, Array.getElem?_setIfInBounds]
    split
    · rename_i here
      rw [← here, made]
      exact same
    · rfl
  · intro j other found
    rw [Array.getElem?_setIfInBounds] at found
    split at found
    · cases found
      exact tame
    · exact inv.tame j other found

/-! ## Changes of one tail -/

omit [TailFields M φ] in
/-- A tail of an updated ledger is the new one or one that was there before. -/
theorem keeps_of_update (first : HybridStore M φ) {last : HybridStore M φ} {i j : Nat}
    {origin : Reference M} {changed tail : Tail}
    (keeps : Keeps (Function.update ledger i (some changed)) last j origin tail)
    (same : j ≠ i → last.origin? j = first.origin? j) :
    (j = i ∧ tail = changed) ∨ (j ≠ i ∧ Keeps ledger first j origin tail) := by
  obtain ⟨ledger_eq, origin_eq⟩ := keeps
  by_cases here : j = i
  · left
    rw [here, Function.update_self] at ledger_eq
    exact ⟨here, (Option.some.inj ledger_eq).symm⟩
  · right
    rw [Function.update_of_ne here] at ledger_eq
    exact ⟨here, ledger_eq, (same here).symm.trans origin_eq⟩

/-- An element is stored in the tail of one hybrid. All other tails lie apart from it. -/
theorem set {i : Nat} {origin : Reference M} {tail : Tail} {s : Scalar} {index : Int32}
    {x : s.Carrier M} {region : Region} (inv : Invariant fresh ledger store)
    (keeps : Keeps ledger store i origin tail) (within_tail : Within M s tail index)
    (patched : store.heap.region.Patched (origin.bits.toNat - store.heap.region.base.toNat +
      M.bytes + index.toInt.toNat * s.bytes M)
      (Pointer.code M s store.heap.region.order x) region) :
    Invariant fresh (Function.update ledger i (some (tail.put M fresh.order s index x)))
      { store with heap := { store.heap with region } } := by
  have holds := inv.holds i origin tail keeps
  have base := holds.base_le
  have stop := holds.stop_le
  have inside := within_tail.2
  rw [tailStop, BumpHeap.tailBytes_eq] at stop
  -- A tail that is kept afterwards has been kept before, with the same length.
  have before (j : Nat) (other : Reference M) (tail' : Tail)
      (keeps' : Keeps (Function.update ledger i (some (tail.put M fresh.order s index x)))
        { store with heap := { store.heap with region } } j other tail') :
      ∃ earlier, earlier.length = tail'.length ∧ Keeps ledger store j other earlier := by
    rcases keeps_of_update store keeps' fun _ => rfl with ⟨rfl, rfl⟩ | ⟨-, kept⟩
    · exact ⟨tail, rfl, keeps.ledger_eq, keeps'.origin_eq⟩
    · exact ⟨tail', rfl, kept⟩
  constructor
  · exact patched.base_eq.trans inv.base_eq
  · exact patched.size_eq.trans inv.size_eq
  · exact patched.order_eq.trans inv.order_eq
  · exact inv.fits.of_patched patched
  · intro k beyond
    rw [patched.base_eq] at beyond
    have behind : store.heap.next.toNat ≤ store.heap.region.base.toNat + k := beyond
    rw [patched.byte_of_le, inv.unused k behind]
    rw [Pointer.length_code]
    omega
  · exact inv.tame
  · intro j
    by_cases here : j = i
    · rw [here, Function.update_self]
      exact (congrArg Option.isSome keeps.origin_eq).symm
    · rw [Function.update_of_ne here]
      exact inv.expanded j
  · intro j other tail' keeps'
    rcases keeps_of_update store keeps' fun _ => rfl with ⟨rfl, rfl⟩ | ⟨distinct, kept⟩
    · have same : other = origin := Option.some.inj (keeps'.origin_eq.symm.trans keeps.origin_eq)
      rw [same, ← inv.order_eq]
      exact holds.put within_tail patched (Nat.le_refl _)
    · refine (inv.holds j other tail' kept).of_patched patched (Nat.le_refl _) ?_
      have apart := inv.apart j i distinct other origin tail' tail kept keeps
      rw [Apart, tailStop, tailStop, BumpHeap.tailBytes_eq, BumpHeap.tailBytes_eq] at apart
      rw [Pointer.length_code, tailStop, BumpHeap.tailBytes_eq]
      omega
  · intro j k distinct other other' tail' tail'' keeps' keeps''
    obtain ⟨earlier, length_eq, kept⟩ := before j other tail' keeps'
    obtain ⟨earlier', length_eq', kept'⟩ := before k other' tail'' keeps''
    rw [Apart, ← length_eq, ← length_eq']
    exact inv.apart j k distinct other other' earlier earlier' kept kept'

omit [TailFields M φ] in
/-- After an expansion a tail is the new one or one that was there before. -/
theorem keeps_of_push {h : Hybrid M φ} {last : BumpHeap} {origin other : Reference M}
    {new tail : Tail} {j : Nat}
    (keeps : Keeps (Function.update ledger store.hybrids.size (some new))
      ⟨last, store.hybrids.push { h with origin := some origin }⟩ j other tail) :
    (j = store.hybrids.size ∧ other = origin ∧ tail = new) ∨ Keeps ledger store j other tail := by
  have pushed := origin?_push store last { h with origin := some origin } j
  rcases keeps_of_update store keeps fun old => by rw [pushed, if_neg old] with
    ⟨here, tail_eq⟩ | ⟨-, kept⟩
  · rw [if_pos here] at pushed
    exact .inl ⟨here, Option.some.inj (keeps.origin_eq.symm.trans pushed), tail_eq⟩
  · exact .inr kept

/-- A new tail lies behind all others. -/
theorem expand {h : Hybrid M φ} {length : Int32} {last : BumpHeap} {origin : Reference M}
    (inv : Invariant fresh ledger store) (tame : h.shape.Tame M) (nonneg : 0 ≤ length.toInt)
    (small : length.toInt < 2 ^ 30) (fits : last.Fits M)
    (patched : store.heap.region.Patched
      (store.heap.next.toNat - store.heap.region.base.toNat)
      (Pointer.code M .word store.heap.region.order (lengthWord M length)) last.region)
    (next_eq : last.next.toNat = store.heap.next.toNat + tailBytes M length)
    (origin_eq : origin.bits.toNat = store.heap.next.toNat) :
    Invariant fresh (Function.update ledger store.hybrids.size (some (.zeros M length)))
      ⟨last, store.hybrids.push { h with origin := some origin }⟩ := by
  have base := inv.fits.base_le
  have count := BumpHeap.tailBytes_eq M length
  have code : (Pointer.code M .word store.heap.region.order (lengthWord M length)).length =
      M.bytes := Pointer.length_code _ _
  have next_le : store.heap.next.toNat ≤ last.next.toNat := by omega
  -- Every tail that has been kept before ends where the new one starts, or earlier.
  have behind {j : Nat} {other : Reference M} {tail : Tail}
      (kept : Keeps ledger store j other tail) :
      tailStop other tail.length ≤ origin.bits.toNat := by
    rw [origin_eq]
    exact (inv.holds j other tail kept).stop_le
  constructor
  · exact patched.base_eq.trans inv.base_eq
  · exact patched.size_eq.trans inv.size_eq
  · exact patched.order_eq.trans inv.order_eq
  · exact fits
  · intro k beyond
    rw [patched.base_eq] at beyond
    have unused : last.next.toNat ≤ store.heap.region.base.toNat + k := beyond
    rw [patched.byte_of_le (by omega), inv.unused k (by omega)]
  · intro j made found
    rw [Array.getElem?_push] at found
    split at found
    · cases found
      exact tame
    · exact inv.tame j made found
  · intro j
    rw [origin?_push]
    by_cases new : j = store.hybrids.size
    · rw [new, Function.update_self, if_pos rfl]
      rfl
    · rw [Function.update_of_ne new, if_neg new]
      exact inv.expanded j
  · intro j other tail keeps
    rcases keeps_of_push keeps with ⟨-, rfl, rfl⟩ | kept
    · exact .of_expand inv.fits nonneg small inv.unused patched next_eq origin_eq
    · refine (inv.holds j other tail kept).of_patched patched next_le (.inr ?_)
      have stop := behind kept
      omega
  · intro j k distinct other other' tail tail' keeps keeps'
    rcases keeps_of_push keeps with ⟨rfl, rfl, rfl⟩ | kept
    · rcases keeps_of_push keeps' with ⟨rfl, -, -⟩ | kept'
      · exact absurd rfl distinct
      · exact .inr (behind kept')
    · rcases keeps_of_push keeps' with ⟨-, rfl, -⟩ | kept'
      · exact .inl (behind kept)
      · exact inv.apart j k distinct other other' tail tail' kept kept'

end Invariant

/-! ## Steps -/

section Steps

variable [ToString φ] {fresh : Region} {ledger : Ledger} {store : HybridStore M φ} {i : Nat}
  {h : Hybrid M φ}

/-- What a step of a program preserves, given the outcome of the step. -/
def Preserves (fresh : Region) (ledger : Ledger) (s : Step φ) :
    EStateM.Result Fault (HybridStore M φ) (Answer φ) → Prop
  | .ok answer last => Invariant fresh (Ledger.record M fresh.order ledger (s, .ok answer)) last
  | .error _ last => Invariant fresh ledger last

omit [ToString φ] in
theorem preserves_of_reads {s : Step φ} {access : Access (HybridStore M φ) (Answer φ)}
    (inv : Invariant fresh ledger store) (reads : access.Reads)
    (unrecorded : ∀ answer, Ledger.record M fresh.order ledger (s, .ok answer) = ledger) :
    Preserves fresh ledger s (access store) := by
  rcases reads.cases store with ⟨answer, done⟩ | ⟨fault, failed⟩
  · rw [done]
    change Invariant fresh (Ledger.record M fresh.order ledger (s, .ok answer)) store
    rw [unrecorded]
    exact inv
  · rw [failed]
    exact inv

omit [ToString φ] in
/-- The ledger has a tail for each hybrid that has been expanded. -/
theorem keeps_of_expanded {origin : Reference M} (inv : Invariant fresh ledger store)
    (made : store.hybrids[i]? = some h) (expanded : h.origin = some origin) :
    ∃ tail, Keeps ledger store i origin tail := by
  have origin_eq : store.origin? i = some origin := (origin?_of_made made).trans expanded
  obtain ⟨tail, ledger_eq⟩ : ∃ tail, ledger i = some tail := by
    rw [← Option.isSome_iff_exists, inv.expanded, origin_eq]
    rfl
  exact ⟨tail, ledger_eq, origin_eq⟩

omit [ToString φ] in
/-- A use that stores an element in the tail of a hybrid, or fails without a change. -/
theorem preserves_stored {step : Step φ} {origin : Reference M} {tail : Tail} {s : Scalar}
    {index : Int32} {x : s.Carrier M} {write : Access BumpHeap Unit}
    (inv : Invariant fresh ledger store) (keeps : Keeps ledger store i origin tail)
    (recorded : ∀ answer, Ledger.record M fresh.order ledger (step, .ok answer) =
      Function.update ledger i ((ledger i).map fun t => t.put M fresh.order s index x))
    (outcome : (Within M s tail index ∧ ∃ region,
      write store.heap = .ok () { store.heap with region } ∧
      store.heap.region.Patched (origin.bits.toNat - store.heap.region.base.toNat + M.bytes +
        index.toInt.toNat * s.bytes M)
        (Pointer.code M s store.heap.region.order x) region) ∨
      ∃ fault, write store.heap = .error fault store.heap) :
    Preserves fresh ledger step
      ((do inHeap write; return .bytes (← snapshot) :
        Access (HybridStore M φ) (Answer φ)) store) := by
  rcases outcome with ⟨within_tail, region, stored, patched⟩ | ⟨fault, failed⟩
  · rw [Access.bind_of_ok (inHeap_of_ok stored), Access.bind_of_ok (snapshot_eq _)]
    change Invariant fresh (Ledger.record M fresh.order ledger (step, .ok _)) _
    rw [recorded, keeps.ledger_eq, Option.map_some]
    exact inv.set keeps within_tail patched
  · rw [Access.bind_of_error (inHeap_of_error failed)]
    exact inv

theorem preserves_setWord (inv : Invariant fresh ledger store)
    (made : store.hybrids[i]? = some h) (index : Int32) (pattern : BitVec 64) :
    Preserves fresh ledger (.use i (.setWord index pattern))
      (access i h (.setWord index pattern) store) := by
  cases expanded : h.origin with
  | none =>
      have failed : h.setWord index (.ofBits pattern) store.heap =
          .error .unexpanded store.heap := Hybrid.setWord_of_unexpanded expanded _ _
      rw [access, Access.bind_of_error (inHeap_of_error failed)]
      exact inv
  | some origin =>
      obtain ⟨tail, keeps⟩ := keeps_of_expanded inv made expanded
      refine preserves_stored inv keeps (fun _ => rfl) ?_
      rcases Hybrid.setWord_cases inv.fits (inv.holds i origin tail keeps) (inv.tame i h made)
        expanded index (.ofBits pattern) with ⟨-, stored⟩ | ⟨-, failed⟩
      · exact .inl stored
      · exact .inr failed

theorem preserves_setInt (inv : Invariant fresh ledger store)
    (made : store.hybrids[i]? = some h) (index value : Int32) :
    Preserves fresh ledger (.use i (.setInt index value))
      (access i h (.setInt index value) store) := by
  cases expanded : h.origin with
  | none =>
      have failed : h.setInt index value store.heap = .error .unexpanded store.heap :=
        Hybrid.setInt_of_unexpanded expanded _ _
      rw [access, Access.bind_of_error (inHeap_of_error failed)]
      exact inv
  | some origin =>
      obtain ⟨tail, keeps⟩ := keeps_of_expanded inv made expanded
      refine preserves_stored inv keeps (fun _ => rfl) ?_
      rcases Hybrid.setInt_cases inv.fits (inv.holds i origin tail keeps) (inv.tame i h made)
        expanded index value with ⟨-, stored⟩ | ⟨-, failed⟩
      · exact .inl stored
      · exact .inr failed

theorem preserves_expand (inv : Invariant fresh ledger store)
    (made : store.hybrids[i]? = some h) {length : Int32} (small : length.toInt < 2 ^ 30) :
    Preserves fresh ledger (.use i (.expand length)) (access i h (.expand length) store) := by
  rcases Hybrid.expand_cases h store.heap length with
    ⟨⟨-, nonneg, given⟩, refused⟩ | ⟨fault, failed⟩
  · rcases BumpHeap.expand_cases inv.fits length with
      ⟨last, taken, fits, patched, next_eq, origin_eq⟩ | ⟨fault, failed⟩
    · rw [access, Access.bind_of_ok (inHeap_of_ok (given _ last taken)),
        Access.bind_of_ok (push_eq _ _), Access.bind_of_ok (snapshot_eq _)]
      exact inv.expand (inv.tame i h made) nonneg small fits patched next_eq origin_eq
    · rw [access, Access.bind_of_error (inHeap_of_error (refused fault store.heap failed))]
      exact inv
  · rw [access, Access.bind_of_error (inHeap_of_error failed)]
    exact inv

/-- A use of a hybrid preserves the invariant. -/
theorem preserves_access (inv : Invariant fresh ledger store)
    (made : store.hybrids[i]? = some h) {u : Use φ} (tame : Step.Tame M (.use i u)) :
    Preserves fresh ledger (.use i u) (access i h u store) := by
  cases u with
  | expand length => exact preserves_expand inv made tame
  | setFields fields => exact inv.put made rfl tame
  | setWord index pattern => exact preserves_setWord inv made index pattern
  | setInt index value => exact preserves_setInt inv made index value
  | _ => exact preserves_of_reads inv (reads_access i h rfl) fun _ => rfl

omit [TailFields M φ] [ToString φ] in
theorem record_error (order : ByteOrder) (ledger : Ledger) (s : Step φ) (cause : StepError) :
    Ledger.record M order ledger (s, .error cause) = ledger := by
  rw [Ledger.record]
  all_goals exact nofun

/-- A step preserves the invariant, with its answer recorded in the ledger. -/
theorem invariant_step (inv : Invariant fresh ledger store) {s : Step φ} (tame : s.Tame M) :
    Invariant fresh (Ledger.record M fresh.order ledger (s, (store.step s).1))
      (store.step s).2 := by
  cases s with
  | new fields => exact inv.push rfl tame
  | poke address pattern => exact absurd tame id
  | use i u =>
      cases made : store.hybrids[i]? with
      | some h =>
          have preserved := preserves_access inv made tame
          cases outcome : access i h u store with
          | ok answer last =>
              rw [outcome] at preserved
              rw [step_use_of_ok made outcome]
              exact preserved
          | error fault last =>
              rw [outcome] at preserved
              rw [step_use_of_error made outcome, record_error]
              exact preserved
      | none =>
          rw [step_use_of_missing made, record_error]
          exact inv

/-- The invariant holds after every program, with the ledger that follows it. -/
theorem invariant_run (program : List (Step φ)) (tame : ∀ s ∈ program, s.Tame M)
    (inv : Invariant fresh ledger store) :
    Invariant fresh ((program.zip (store.run program).1).foldl
      (Ledger.record M fresh.order) ledger) (store.run program).2 := by
  induction program generalizing ledger store with
  | nil => exact inv
  | cons s rest ih =>
      obtain ⟨first, others⟩ := List.forall_mem_cons.1 tame
      exact ih others (invariant_step inv first)

omit [TailFields M φ] [ToString φ] in
/-- A heap over a region of zeros that fits into the address space of a word. -/
theorem fits_empty {base : BitVec 64} {size : Nat} {order : ByteOrder} {region : Region}
    (made : Region.zeros base size order = .ok region) (fits : base.toNat + size ≤ 2 ^ M.bits) :
    (BumpHeap.empty region).Fits M := by
  obtain ⟨base_eq, size_eq, -, -⟩ := Region.fields_of_zeros made
  refine ⟨Nat.le_refl _, Nat.le_add_right _ _, ?_⟩
  change region.base.toNat + region.size ≤ _
  rwa [base_eq, size_eq]

omit [ToString φ] in
/-- A store without hybrids keeps no tails. -/
theorem invariant_empty {base : BitVec 64} {size : Nat} {order : ByteOrder} {region : Region}
    (made : Region.zeros base size order = .ok region) (fits : base.toNat + size ≤ 2 ^ M.bits) :
    Invariant region (fun _ => none) (empty region : HybridStore M φ) := by
  constructor
  · rfl
  · rfl
  · rfl
  · exact fits_empty made fits
  · intro i _
    exact Region.byte_of_zeros made i
  · intro i h found
    cases found
  · intro i
    rfl
  · intro i origin tail keeps
    cases keeps.ledger_eq
  · intro i j distinct origin other tail tail' keeps
    cases keeps.ledger_eq

/-- **The tails of hybrids do not affect each other.** Run any program over an empty bump heap
in zeros. Then a hybrid has a tail exactly if its own steps give it one. The tail lies in the
region, apart from the tails of all other hybrids, and the hybrid shows the length and the
elements that its own steps determine. -/
theorem tails_independent {base : BitVec 64} {size : Nat} {order : ByteOrder} {region : Region}
    (made : Region.zeros base size order = .ok region) (fits : base.toNat + size ≤ 2 ^ M.bits)
    (program : List (Step φ)) (tame : ∀ s ∈ program, s.Tame M) :
    let last := ((empty region : HybridStore M φ).run program).2
    let own := Ledger.own M order
      (program.zip ((empty region : HybridStore M φ).run program).1)
    (∀ i, (own i).isSome = (last.origin? i).isSome) ∧
    (∀ (i : Nat) (h : Hybrid M φ) (origin : Reference M) (tail : Tail),
      last.hybrids[i]? = some h → h.origin = some origin → own i = some tail →
      base.toNat ≤ origin.bits.toNat ∧ tailStop origin tail.length ≤ base.toNat + size ∧
        h.Shows last.heap order tail) ∧
    ∀ (i j : Nat), i ≠ j → ∀ (origin other : Reference M) (tail tail' : Tail),
      last.origin? i = some origin → own i = some tail →
      last.origin? j = some other → own j = some tail' → Apart origin tail other tail' := by
  obtain ⟨base_eq, size_eq, order_eq, -⟩ := Region.fields_of_zeros made
  have inv := invariant_run program tame (invariant_empty made fits)
  rw [order_eq] at inv
  have ledger_eq : Ledger.replay M order
      (program.zip ((empty region : HybridStore M φ).run program).1) =
      Ledger.own M order (program.zip ((empty region : HybridStore M φ).run program).1) :=
    funext (Ledger.replay_eq_own _)
  refine ⟨?_, ?_, ?_⟩
  · intro i
    rw [← ledger_eq]
    exact inv.expanded i
  · intro i h origin tail found expanded own_eq
    have keeps : Keeps _ _ i origin tail :=
      ⟨(congrFun ledger_eq i).trans own_eq, (origin?_of_made found).trans expanded⟩
    have holds := inv.holds i origin tail keeps
    have shows_tail := Hybrid.shows_of_holds inv.fits holds (inv.tame i h found) expanded
    rw [inv.order_eq, order_eq] at shows_tail
    refine ⟨?_, ?_, shows_tail⟩
    · rw [← base_eq, ← inv.base_eq]
      exact holds.base_le
    · rw [← base_eq, ← size_eq, ← inv.base_eq, ← inv.size_eq]
      exact holds.stop_le.trans inv.fits.next_le
  · intro i j distinct origin other tail tail' origin_eq own_eq other_eq own_eq'
    exact inv.apart i j distinct origin other tail tail'
      ⟨(congrFun ledger_eq i).trans own_eq, origin_eq⟩
      ⟨(congrFun ledger_eq j).trans own_eq', other_eq⟩

end Steps

/-- Two tails, with writes of words and ints and with steps that fail. -/
def twoTails : List (Step NumberedFields) :=
  [.new ⟨7, ⟨0, -1, none⟩⟩, .use 0 (.expand 2), .new ⟨9, ⟨1, -1, none⟩⟩, .use 2 (.expand 3),
    .use 1 (.setWord 1 0x11223344), .use 3 (.setInt 1 (-1)), .use 3 (.setInt 0 5),
    .use 1 (.setWord 2 5), .use 1 (.setInt 0 258), .use 1 (.expand 2)]

theorem tails_independent_of_two_tails : ∃ region, Region.zeros 0x1000 64 .little = .ok region ∧
    let last := ((empty region : HybridStore .hosted32 NumberedFields).run twoTails).2
    last.origin? 1 = some (.ofBits 0x1000) ∧ last.origin? 3 = some (.ofBits 0x100c) ∧
    ∀ h, (last.hybrids[1]? = some h →
        h.Shows last.heap .little ⟨2, [2, 1, 0, 0, 0x44, 0x33, 0x22, 0x11]⟩) ∧
      (last.hybrids[3]? = some h →
        h.Shows last.heap .little ⟨3, [0, 0, 0, 0, 0xff, 0xff, 0xff, 0xff, 0, 0, 0, 0]⟩) := by
  have tame : ∀ s ∈ twoTails, s.Tame .hosted32 := by
    have zero : (AffineShape.tail .hosted32 ⟨0, -1, none⟩).Tame .hosted32 :=
      AffineShape.tame_tail (by decide) (by decide) rfl
    have one : (AffineShape.tail .hosted32 ⟨1, -1, none⟩).Tame .hosted32 :=
      AffineShape.tame_tail (by decide) (by decide) rfl
    have two_lt : (2 : Int32).toInt < 2 ^ 30 := by decide
    have three_lt : (3 : Int32).toInt < 2 ^ 30 := by decide
    simp only [twoTails, List.forall_mem_cons]
    exact ⟨zero, two_lt, one, three_lt, trivial, trivial, trivial, trivial, trivial, two_lt,
      nofun⟩
  obtain ⟨-, shows_tail, -⟩ := tails_independent
    (show Region.zeros 0x1000 64 .little = .ok _ from rfl) (by decide) twoTails tame
  refine ⟨_, rfl, by decide +kernel, by decide +kernel, fun h => ⟨?_, ?_⟩⟩
  · intro found
    exact (shows_tail 1 h (.ofBits 0x1000) _ found
      ((origin?_of_made found).symm.trans (by decide +kernel)) (by decide +kernel)).2.2
  · intro found
    exact (shows_tail 3 h (.ofBits 0x100c) _ found
      ((origin?_of_made found).symm.trans (by decide +kernel)) (by decide +kernel)).2.2
end HybridStore

end MachineWord
