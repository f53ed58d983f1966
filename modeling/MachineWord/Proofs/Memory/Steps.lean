import Mathlib
import MachineWord.Pointer.Copy
import MachineWord.Proofs.Memory.Swaps

/-!
# Programs of typed accesses

A typed step reads, writes or swaps a value, or copies elements of an array into an array of the
program, through a pointer of its own. A program is a list of such steps. The run of a program
records the reply of each step or the fault that it has failed with, and goes on after a fault.

The spans of a step are the runs of bytes that it reaches in a region: one for a value, and one
for each element that is copied before a copy ends or fails. A step that is refused reaches no
bytes. Where a region begins and how many bytes it has decides which spans these are
(`spans_congr`), so they are the same throughout a run.
-/

set_option autoImplicit false

namespace MachineWord

/-- A run of bytes at an address. -/
structure Span where
  address : Nat
  count : Nat
  deriving DecidableEq, Repr

namespace Span

/-- Two spans are the same, or they have no byte in common. -/
def SameOrApart (x y : Span) : Prop :=
  x = y ∨ x.address + x.count ≤ y.address ∨ y.address + y.count ≤ x.address

instance (x y : Span) : Decidable (x.SameOrApart y) := inferInstanceAs (Decidable (_ ∨ _))

theorem SameOrApart.refl (x : Span) : x.SameOrApart x := .inl rfl

theorem SameOrApart.symm {x y : Span} (separate : x.SameOrApart y) : y.SameOrApart x := by
  rcases separate with same | below | above
  · exact .inl same.symm
  · exact .inr (.inr below)
  · exact .inr (.inl above)

/-- The address is that of a byte of the span. -/
def Covers (x : Span) (address : Nat) : Prop := x.address ≤ address ∧ address < x.address + x.count

end Span

namespace Region

/-- The bytes of a region in a span. -/
def bytesOf (r : Region) (x : Span) : List UInt8 := r.bytesAt (x.address - r.base.toNat) x.count

/-- All bytes of the span belong to the region. -/
def Holds (r : Region) (x : Span) : Prop :=
  r.base.toNat ≤ x.address ∧ x.address + x.count ≤ r.base.toNat + r.size

end Region

/-- A step of a program on typed memory. -/
inductive TypedStep (M : Model) where
  | read (p : Pointer M) (s : Scalar) (offset : Offset M)
  | write (p : Pointer M) (s : Scalar) (offset : Offset M) (x : s.Carrier M)
  | swap (p : Pointer M) (offset : Offset M) (k : SwapKind) (expected new : k.scalar.Carrier M)
  | copy (p : Pointer M) (kind : Kind) (displacement first : Int32) (target count : Nat)
      (dst : Array (kind.Carrier M))

/-- The reply of a step. -/
inductive TypedReply (M : Model) where
  | done
  /-- The value that is read, or that was there before a swap. -/
  | value (s : Scalar) (x : s.Carrier M)
  /-- The array after a copy, and the cause for which the copy failed. -/
  | copied (kind : Kind) (dst : Array (kind.Carrier M)) (cause : Option CopyError)

namespace Pointer

variable {M : Model} (r : Region) (p : Pointer M) (s : Scalar)

/-- The span of a typed access. -/
def span (offset : Offset M) : Span := ⟨(p.locate offset).toNat, s.bytes M⟩

theorem holds_span {offset : Offset M} (inside : Inside r p s offset) : r.Holds (p.span s offset) :=
  (r.contains_iff _ _).1 inside

/-- The spans of elements that are copied, `i` having been copied already. -/
def elementSpans (displacement first : Int32) : (i count : Nat) → List Span
  | _, 0 => []
  | i, count + 1 =>
    match exactIndex (first.toInt + (wrapIndex i).toInt) with
    | .ok index =>
      if Inside r p s (scaled s displacement index) then
        p.span s (scaled s displacement index) :: elementSpans displacement first (i + 1) count
      else []
    | .error _ => []

theorem elementSpans_congr {next : Region} (base_eq : next.base = r.base)
    (size_eq : next.size = r.size) (displacement first : Int32) (i count : Nat) :
    elementSpans next p s displacement first i count =
      elementSpans r p s displacement first i count := by
  induction count generalizing i with
  | zero => rfl
  | succ count ih =>
      rw [elementSpans, elementSpans]
      cases exactIndex (first.toInt + (wrapIndex i).toInt) with
      | ok index => simp only [inside_congr p _ base_eq size_eq, ih]
      | error fault => rfl

/-- An element that is found is the first of those that are reached. -/
theorem elementSpans_of_ok {displacement first : Int32} {i : Nat} {value : s.Carrier M}
    (found : p.elementFrom r s displacement first i = .ok value) (count : Nat) :
    ∃ x, elementSpans r p s displacement first i (count + 1) =
      x :: elementSpans r p s displacement first (i + 1) count := by
  obtain ⟨index, index_eq, fetched⟩ := exists_of_bind_eq_ok found
  have inside : Inside r p s (scaled s displacement index) := by
    by_contra outside
    rw [element, p.fetch_of_not_inside _ outside] at fetched
    cases fetched
  refine ⟨p.span s (scaled s displacement index), ?_⟩
  rw [elementSpans, index_eq]
  exact if_pos inside

theorem holds_elementSpans {displacement first : Int32} {i count : Nat} {x : Span}
    (reached : x ∈ elementSpans r p s displacement first i count) : r.Holds x := by
  induction count generalizing i with
  | zero => cases reached
  | succ count ih =>
      rw [elementSpans] at reached
      split at reached
      · split at reached
        · rename_i inside
          rcases List.mem_cons.1 reached with rfl | later
          · exact holds_span r p s inside
          · exact ih later
        · cases reached
      · cases reached

/-- A copy that is refused looks at no memory. -/
theorem copyScalars_congr {μ ν : Type} [Memory μ] [Memory ν] {memory : μ} {other : ν}
    {displacement first : Int32} {target count : Nat} {dst : Array (s.Carrier M)}
    (same : target + count < UInt64.size ∧ target + count ≤ dst.size →
      p.copyFrom memory s displacement first target 0 count dst =
        p.copyFrom other s displacement first target 0 count dst) :
    p.copyScalars memory s displacement first target count dst =
      p.copyScalars other s displacement first target count dst := by
  rw [copyScalars, copyScalars]
  split
  · rfl
  · split
    · rfl
    · exact same (by omega)

end Pointer

namespace TypedStep

variable {M : Model} {μ : Type} [Memory μ]

/-! ## Runs -/

/-- What a step does to a memory. -/
def access : TypedStep M → Access μ (TypedReply M)
  | .read p s offset => .value s <$> p.read s offset
  | .write p s offset x => (fun _ => .done) <$> p.write s offset x
  | .swap p offset k expected new => .value k.scalar <$> p.swap offset k expected new
  | .copy p kind displacement first target count dst => .query fun memory =>
    let (filled, cause) := p.copyElements memory displacement first target count kind dst
    .ok (.copied kind filled cause)

/-- The replies of a program, and the memory after it. -/
def run (memory : μ) : List (TypedStep M) → List (Except Fault (TypedReply M)) × μ
  | [] => ([], memory)
  | step :: rest =>
    let (replies, last) := run (step.access.after memory) rest
    (step.access.answer memory :: replies, last)

/-! ## Spans -/

/-- The spans that a step reaches in a region. -/
def spans (r : Region) : TypedStep M → List Span
  | .read p s offset => if p.Inside r s offset then [p.span s offset] else []
  | .write p s offset _ => if p.Inside r s offset then [p.span s offset] else []
  | .swap p offset k _ _ =>
    if p.Aligned offset k ∧ p.Inside r k.scalar offset then [p.span k.scalar offset] else []
  | .copy _ .void _ _ _ _ _ => []
  | .copy p (.scalar s) displacement first target count dst =>
    if target + count < UInt64.size ∧ target + count ≤ dst.size then
      p.elementSpans r s displacement first 0 count
    else []

/-- Whether a step may store bytes. -/
def Stores : TypedStep M → Prop
  | .read .. => False
  | .write .. => True
  | .swap .. => True
  | .copy .. => False

/-- Steps keep a region where it is. -/
theorem place_access (step : TypedStep M) (r : Region) :
    (step.access.after r).base = r.base ∧ (step.access.after r).size = r.size := by
  cases step with
  | read p s offset =>
      rw [access, Access.after_map, Pointer.read, Access.Reads.query]
      exact ⟨rfl, rfl⟩
  | write p s offset x =>
      have agrees := p.agreesBeyond_write offset r x
      rw [access, Access.after_map]
      exact ⟨agrees.base_eq, agrees.size_eq⟩
  | swap p offset k expected new =>
      have agrees := p.agreesBeyond_write offset r new
      rw [access, Access.after_map]
      rcases p.after_swap offset k expected new r with written | kept
      · rw [written]
        exact ⟨agrees.base_eq, agrees.size_eq⟩
      · rw [kept]
        exact ⟨rfl, rfl⟩
  | copy p kind displacement first target count dst =>
      rw [access, Access.Reads.query]
      exact ⟨rfl, rfl⟩

theorem place_run (steps : List (TypedStep M)) (r : Region) :
    (run r steps).2.base = r.base ∧ (run r steps).2.size = r.size := by
  induction steps generalizing r with
  | nil => exact ⟨rfl, rfl⟩
  | cons step rest ih =>
      obtain ⟨base_eq, size_eq⟩ := step.place_access r
      obtain ⟨base_eq', size_eq'⟩ := ih (step.access.after r)
      exact ⟨base_eq'.trans base_eq, size_eq'.trans size_eq⟩

theorem spans_congr {r next : Region} (base_eq : next.base = r.base) (size_eq : next.size = r.size)
    (step : TypedStep M) : step.spans next = step.spans r := by
  cases step with
  | read p s offset => simp only [spans, p.inside_congr offset base_eq size_eq]
  | write p s offset x => simp only [spans, p.inside_congr offset base_eq size_eq]
  | swap p offset k expected new => simp only [spans, p.inside_congr offset base_eq size_eq]
  | copy p kind displacement first target count dst =>
      cases kind with
      | void => rfl
      | scalar s => simp only [spans, p.elementSpans_congr r s base_eq size_eq]

theorem mem_spans_copy {r : Region} {p : Pointer M} {s : Scalar} {displacement first : Int32}
    {target count : Nat} {dst : Array (s.Carrier M)}
    (fits : target + count < UInt64.size ∧ target + count ≤ dst.size) {x : Span}
    (reached : x ∈ p.elementSpans r s displacement first 0 count) :
    x ∈ (copy p (.scalar s) displacement first target count dst).spans r := by
  change x ∈ if target + count < UInt64.size ∧ target + count ≤ dst.size then
    p.elementSpans r s displacement first 0 count else []
  rwa [if_pos fits]

/-- Steps reach bytes of the region only. -/
theorem holds_spans {r : Region} {step : TypedStep M} {x : Span} (reached : x ∈ step.spans r) :
    r.Holds x := by
  cases step with
  | read p s offset =>
      obtain ⟨inside, rfl⟩ : p.Inside r s offset ∧ x = p.span s offset := by
        simpa [spans] using reached
      exact p.holds_span r s inside
  | write p s offset value =>
      obtain ⟨inside, rfl⟩ : p.Inside r s offset ∧ x = p.span s offset := by
        simpa [spans] using reached
      exact p.holds_span r s inside
  | swap p offset k expected new =>
      obtain ⟨⟨-, inside⟩, rfl⟩ : (p.Aligned offset k ∧ p.Inside r k.scalar offset) ∧
          x = p.span k.scalar offset := by
        simpa [spans] using reached
      exact p.holds_span r k.scalar inside
  | copy p kind displacement first target count dst =>
      cases kind with
      | void => cases reached
      | scalar s =>
          rw [spans] at reached
          split at reached
          · exact p.holds_elementSpans r s reached
          · cases reached

/-- A step that may store bytes reaches one span at most. -/
theorem eq_of_mem_spans {r : Region} {step : TypedStep M} (stores : step.Stores) {x y : Span}
    (reached : x ∈ step.spans r) (reached' : y ∈ step.spans r) : x = y := by
  cases step with
  | read p s offset => exact stores.elim
  | write p s offset value => simp_all [spans]
  | swap p offset k expected new => simp_all [spans]
  | copy p kind displacement first target count dst => exact stores.elim

end TypedStep

end MachineWord
