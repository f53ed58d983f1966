import Mathlib
import MachineWord.Memory.Region.Bytes

/-!
# The parts of an access

An access of some bytes visits the cells that hold them, one after another. `Region.forEachCell` is
the loop with anything that may be done at a cell; loads and stores are this loop
(`Region.load_eq_forEachCell`, `Region.store_eq_forEachCell`). What is done at a cell may fail, and
ends the loop then.

The loop carries two positions, the distance of the next byte from the base and its place in the
access. They advance together, so their difference is that of the start (`Walk.of_mem`), and after
the first visit the distance is that of a whole cell unless the access is finished (`Walk.inner`).
-/

set_option autoImplicit false

namespace MachineWord

namespace Region

/-! ## The loop -/

section Loop

variable {σ : Type}

/-- Does something at each of the cells of an access from a position on. -/
def visitFrom (visit : σ → Chunk → Except Fault σ) (distance start count : Nat) (state : σ) :
    Except Fault σ :=
  if start < count then do
    let within := distance % 8
    let taken := min (8 - within) (count - start)
    let state ← visit state ⟨distance / 8, within, start, taken⟩
    if distance + taken < UInt64.size ∧ start + taken < UInt64.size then
      visitFrom visit (distance + taken) (start + taken) count state
    else .error .overflow
  else return state
termination_by count - start
decreasing_by omega

/-- Does something at each of the cells that hold the bytes at an address. -/
def forEachCell (r : Region) (address : BitVec 64) (count : Nat)
    (visit : σ → Chunk → Except Fault σ) (state : σ) : Except Fault σ := do
  visitFrom visit (← r.distance address count) 0 count state

end Loop

/-! ## Walks -/

/-- The visits of an access of `count` bytes from a position on. Each takes all that its cell has
of the access. -/
inductive Walk (count : Nat) : (distance start : Nat) → List Chunk → Prop where
  | done (distance : Nat) : Walk count distance count []
  | visit {distance start taken : Nat} {rest : List Chunk} (more : start < count)
      (taken_eq : taken = min (8 - distance % 8) (count - start))
      (later : Walk count (distance + taken) (start + taken) rest) :
      Walk count distance start (⟨distance / 8, distance % 8, start, taken⟩ :: rest)

theorem walk_of_chunksFrom {distance start count : Nat} {parts : List Chunk}
    (begun : start ≤ count) (computed : chunksFrom distance start count = .ok parts) :
    Walk count distance start parts := by
  fun_induction chunksFrom distance start count generalizing parts with
  | case1 distance start more within taken small =>
      rename_i ih
      cases later : chunksFrom (distance + taken) (start + taken) count with
      | error fault =>
          rw [later] at computed
          exact absurd computed (by simp [bind, Except.bind])
      | ok rest =>
          rw [later] at computed
          obtain rfl := Except.ok.inj computed
          exact .visit more rfl (ih (by omega) later)
  | case2 => exact absurd computed (by simp)
  | case3 distance start finished =>
      obtain rfl : start = count := by omega
      obtain rfl := Except.ok.inj computed
      exact .done distance

namespace Walk

variable {count distance start : Nat} {parts : List Chunk}

theorem le (walk : Walk count distance start parts) : start ≤ count := by
  cases walk with
  | done => exact le_rfl
  | visit more => exact more.le

/-- A visit is made only if there is something left. -/
theorem eq_nil_or_lt (walk : Walk count distance start parts) : parts = [] ∨ start < count := by
  cases walk with
  | done => exact .inl rfl
  | visit more => exact .inr more

/-- The visits cover the positions that are left, once and in order. -/
theorem spans (walk : Walk count distance start parts) :
    parts.flatMap (fun c => List.range' c.start c.count) = List.range' start (count - start) := by
  induction walk with
  | done => simp
  | @visit distance start taken rest more taken_eq later ih =>
      have split : count - start = taken + (count - (start + taken)) := by
        have := later.le
        omega
      rw [List.flatMap_cons, ih, split, List.range'_append_1]

/-- A visit stays within its cell and within the access. Its place in the cells is as far from its
place in the access as at the start. -/
theorem of_mem (walk : Walk count distance start parts) {c : Chunk} (visited : c ∈ parts) :
    0 < c.count ∧ c.within < 8 ∧ c.within + c.count ≤ 8 ∧ c.start + c.count ≤ count ∧
      8 * c.cell + c.within + start = distance + c.start := by
  induction walk with
  | done => exact absurd visited List.not_mem_nil
  | visit more taken_eq later ih =>
      rcases List.mem_cons.1 visited with rfl | afterwards
      · refine ⟨?_, ?_, ?_, ?_, ?_⟩ <;> dsimp only <;> omega
      · obtain ⟨positive, within, cell, access, place⟩ := ih afterwards
        exact ⟨positive, within, cell, access, by omega⟩

/-- The number of visits is the number of cells touched. -/
theorem length_eq (walk : Walk count distance start parts) :
    parts.length = if start < count then (distance % 8 + (count - start) + 7) / 8 else 0 := by
  induction walk with
  | done => simp
  | visit more taken_eq later ih =>
      rw [List.length_cons, ih, if_pos more]
      split <;> omega

/-- From the beginning of a cell on, all visits start a cell, and all but the last are whole. -/
theorem of_aligned (walk : Walk count distance start parts) (aligned : distance % 8 = 0) :
    (∀ c ∈ parts, c.within = 0) ∧ ∀ c ∈ parts.dropLast, c.count = 8 := by
  induction walk with
  | done => exact ⟨nofun, nofun⟩
  | @visit distance start taken rest more taken_eq later ih =>
      rcases later.eq_nil_or_lt with rfl | left
      · exact ⟨by simpa using aligned, by simp⟩
      · have whole : taken = 8 := by omega
        obtain ⟨starts, wholes⟩ := ih (by omega)
        have some_left : rest ≠ [] := by
          rintro rfl
          have := later.length_eq
          rw [if_pos left, List.length_nil] at this
          omega
        rw [List.dropLast_cons_of_ne_nil some_left]
        exact ⟨List.forall_mem_cons.2 ⟨aligned, starts⟩, List.forall_mem_cons.2 ⟨whole, wholes⟩⟩

/-- Only the first visit can start within a cell, and only the first and the last can take less
than a cell. -/
theorem inner (walk : Walk count distance start parts) :
    (∀ c ∈ parts.tail, c.within = 0) ∧ ∀ c ∈ parts.tail.dropLast, c.count = 8 := by
  cases walk with
  | done => exact ⟨nofun, nofun⟩
  | visit more taken_eq later =>
      rcases later.eq_nil_or_lt with rfl | left
      · exact ⟨nofun, nofun⟩
      · exact later.of_aligned (by omega)

/-- The loop does at each of the visits what there is to do. -/
theorem visitFrom_eq {σ : Type} (walk : Walk count distance start parts)
    (reach : distance + (count - start) < UInt64.size) (bounded : count < UInt64.size)
    (visit : σ → Chunk → Except Fault σ) (state : σ) :
    visitFrom visit distance start count state = parts.foldlM visit state := by
  induction walk generalizing state with
  | done =>
      rw [visitFrom, if_neg (lt_irrefl _)]
      rfl
  | @visit distance start taken rest more taken_eq later ih =>
      have access := later.le
      rw [visitFrom, if_pos more, List.foldlM_cons]
      subst taken_eq
      refine bind_congr fun state => ?_
      rw [if_pos (by omega), ih (by omega)]

end Walk

/-! ## Loads and stores -/

section Accesses

variable {σ : Type} (r : Region) {address : BitVec 64} {count : Nat}

/-- The visits of an access of a region to the bytes at a distance from the base: their spans are
not empty and follow each other from the first to the last position of the access, each lies in its
cell, and the cells are cells of the region. -/
structure PartsAccess (distance count : Nat) (parts : List Chunk) : Prop where
  spans : parts.flatMap (fun c => List.range' c.start c.count) = List.range count
  nonempty : ∀ c ∈ parts, 0 < c.count
  cell_lt : ∀ c ∈ parts, c.cell < r.cells.size
  within_cell : ∀ c ∈ parts, c.within < 8 ∧ c.within + c.count ≤ 8
  place_eq : ∀ c ∈ parts, 8 * c.cell + c.within = distance + c.start
  within_tail : ∀ c ∈ parts.tail, c.within = 0
  count_inner : ∀ c ∈ parts.tail.dropLast, c.count = 8
  length_eq : parts.length = if 0 < count then (distance % 8 + count + 7) / 8 else 0

theorem Walk.partsAccess {distance : Nat} {parts : List Chunk}
    (walk : Walk count distance 0 parts) (reach : distance + count ≤ 8 * r.cells.size) :
    r.PartsAccess distance count parts where
  spans := by rw [walk.spans, Nat.sub_zero, List.range_eq_range']
  nonempty c visited := (walk.of_mem visited).1
  cell_lt c visited := by
    obtain ⟨positive, within, -, access, place⟩ := walk.of_mem visited
    omega
  within_cell c visited := by
    obtain ⟨-, within, cell, -, -⟩ := walk.of_mem visited
    exact ⟨within, cell⟩
  place_eq c visited := (walk.of_mem visited).2.2.2.2
  within_tail := walk.inner.1
  count_inner := walk.inner.2
  length_eq := walk.length_eq

/-- The parts of an access that is contained are computed, and the loop visits them. -/
theorem forEachCell_of_contains (inside : r.contains address count = true) :
    ∃ parts, chunks (address.toNat - r.base.toNat) count = .ok parts ∧
      r.PartsAccess (address.toNat - r.base.toNat) count parts ∧
      ∀ {σ : Type} (visit : σ → Chunk → Except Fault σ) (state : σ),
        r.forEachCell address count visit state = parts.foldlM visit state := by
  obtain ⟨reach, cells, bounded⟩ := reach_of_contains inside
  obtain ⟨parts, computed, -⟩ := chunks_eq (address.toNat - r.base.toNat) count (by omega)
  have walk := walk_of_chunksFrom (Nat.zero_le count) computed
  refine ⟨parts, computed, walk.partsAccess r (by omega), fun visit state => ?_⟩
  rw [forEachCell, distance_of_contains inside]
  exact walk.visitFrom_eq (by omega) (by omega) visit state

/-- An access that is not contained is refused before anything is done. -/
theorem forEachCell_of_not_contains (outside : ¬ r.contains address count = true)
    (visit : σ → Chunk → Except Fault σ) (state : σ) :
    r.forEachCell address count visit state =
      .error (.outside count address.toNat r.base.toNat (r.base.toNat + r.size)) := by
  rw [forEachCell, distance_of_not_contains outside]
  rfl

/-- Appending the pieces of one part after another gives all of them. -/
theorem foldlM_append_eq {α β : Type} (f : α → Except Fault (List β)) (parts : List α)
    (front : List β) :
    parts.foldlM (fun done part => do return done ++ (← f part)) front =
      (do return front ++ (← parts.mapM f).flatten) := by
  induction parts generalizing front with
  | nil => simp
  | cons part rest ih =>
      rw [List.foldlM_cons, List.mapM_cons]
      cases f part with
      | error fault => rfl
      | ok piece =>
          change rest.foldlM _ (front ++ piece) = _
          rw [ih]
          cases rest.mapM f with
          | error fault => rfl
          | ok pieces => simp [bind, Except.bind, pure, Except.pure]

/-- A load is the loop that appends the bytes of each cell. -/
theorem load_eq_forEachCell (address : BitVec 64) (count : Nat) :
    r.load address count = r.forEachCell address count
      (fun bytes c => do return bytes ++ (← r.loadChunk count c)) [] := by
  by_cases inside : r.contains address count = true
  · obtain ⟨parts, computed, -, visited⟩ := r.forEachCell_of_contains inside
    rw [visited, foldlM_append_eq, load, distance_of_contains inside]
    simp only [bind, Except.bind, computed, List.nil_append]
  · rw [load_of_not_contains inside, r.forEachCell_of_not_contains inside]

/-- A store is the loop that replaces the bytes of each cell. -/
theorem store_eq_forEachCell (address : BitVec 64) (bytes : List UInt8) :
    r.store address bytes = r.forEachCell address bytes.length (storeChunk bytes) r := by
  by_cases inside : r.contains address bytes.length = true
  · obtain ⟨parts, computed, -, visited⟩ := r.forEachCell_of_contains inside
    rw [visited, store, distance_of_contains inside]
    simp only [bind, Except.bind, computed]
  · rw [store_of_not_contains inside, r.forEachCell_of_not_contains inside]

theorem contains_stop : r.contains r.stop 0 = true := by
  rw [contains_iff, toNat_stop]
  omega

end Accesses

/-- **An access visits each of its cells once.** A region contains bytes if and only if they lie
between its ends, without regard to overflow. If it does, then the loop of an access visits the
parts of the access and nothing else: they cover its positions once and in order, each lies in one
cell of the region, and all but the first and the last are whole cells. If it does not, then the
access is refused before the first visit. At the end of a region an access of no bytes visits
nothing. Loads and stores are loops of this kind. -/
theorem accesses_visit_their_parts (r : Region) (address : BitVec 64) (count : Nat) :
    (r.contains address count = true ↔
        r.base.toNat ≤ address.toNat ∧ address.toNat + count ≤ r.base.toNat + r.size) ∧
      (r.contains address count = true →
        ∃ parts, chunks (address.toNat - r.base.toNat) count = .ok parts ∧
          r.PartsAccess (address.toNat - r.base.toNat) count parts ∧
          ∀ {σ : Type} (visit : σ → Chunk → Except Fault σ) (state : σ),
            r.forEachCell address count visit state = parts.foldlM visit state) ∧
      (¬ r.contains address count = true →
        ∀ {σ : Type} (visit : σ → Chunk → Except Fault σ) (state : σ),
          r.forEachCell address count visit state =
            .error (.outside count address.toNat r.base.toNat (r.base.toNat + r.size))) ∧
      (∀ {σ : Type} (visit : σ → Chunk → Except Fault σ) (state : σ),
        r.forEachCell r.stop 0 visit state = .ok state) ∧
      (r.load address count = r.forEachCell address count
        (fun bytes c => do return bytes ++ (← r.loadChunk count c)) []) ∧
      ∀ bytes, r.store address bytes =
        r.forEachCell address bytes.length (storeChunk bytes) r := by
  refine ⟨r.contains_iff address count, r.forEachCell_of_contains,
    fun outside => r.forEachCell_of_not_contains outside, fun visit state => ?_,
    r.load_eq_forEachCell address count, r.store_eq_forEachCell address⟩
  obtain ⟨parts, -, visits, visited⟩ := r.forEachCell_of_contains r.contains_stop
  obtain rfl := List.length_eq_zero_iff.1 visits.length_eq
  exact visited visit state

/-- Seventeen bytes that end a region of twenty, and one byte more. -/
theorem accesses_visit_their_parts_of_seventeen :
    let parts : List Chunk := [⟨0, 3, 0, 5⟩, ⟨1, 0, 5, 8⟩, ⟨2, 0, 13, 4⟩]
    ∃ r, zeros 0x1000 20 .little = .ok r ∧ r.PartsAccess 3 17 parts ∧
      r.forEachCell 0x1003 17 (fun seen c => .ok (seen ++ [c])) [] = .ok parts ∧
      r.forEachCell 0x1003 18 (fun seen c => .ok (seen ++ [c])) ([] : List Chunk) =
        .error (.outside 18 0x1003 0x1000 0x1014) := by
  intro parts
  let r : Region := ⟨0x1000, 20, .little, Array.replicate 3 0, by decide, by decide, rfl⟩
  obtain ⟨found, computed, visits, visited⟩ :=
    (accesses_visit_their_parts r 0x1003 17).2.1 (by decide)
  have distance : (0x1003 : BitVec 64).toNat - r.base.toNat = 3 := by decide
  rw [distance] at computed visits
  obtain rfl : parts = found := Except.ok.inj (Eq.trans (by decide +kernel) computed)
  exact ⟨r, rfl, visits, visited _ _,
    (accesses_visit_their_parts r 0x1003 18).2.2.1 (by decide) _ _⟩

end Region

end MachineWord
