import Mathlib
import MachineWord.Proofs.Memory.Refinement
import MachineWord.Proofs.Memory.Steps

/-!
# The byte order of a region cannot be seen

A program whose steps reach the same spans or spans without common bytes never sees a part of a
value. In two regions of opposite orders it finds the same values, so it goes the same way and
stores the same values again. Two regions are mirrored if each span has its bytes in one of them
in reverse, and all other bytes are zero. Each step answers alike in mirrored regions and leaves
them mirrored (`mirrors_access`), and so does a run (`mirrors_run`).
-/

set_option autoImplicit false

namespace MachineWord

/-- Two regions at one place and in opposite orders, in which each of some spans has the same
bytes in reverse and all bytes outside the spans are zero. -/
structure Mirrored (spans : List Span) (little big : Region) : Prop where
  order_little : little.order = .little
  order_big : big.order = .big
  base_eq : big.base = little.base
  size_eq : big.size = little.size
  holds : ∀ x ∈ spans, little.Holds x
  reversed : ∀ x ∈ spans, big.bytesOf x = (little.bytesOf x).reverse
  zero (i : Nat) (outside : ∀ x ∈ spans, ¬ x.Covers (little.base.toNat + i)) :
    little.byte i = 0 ∧ big.byte i = 0

/-- An access gives the same answer in two regions and leaves mirrored regions. -/
def Mirrors {α : Type} (spans : List Span) (little big : Region) (access : Access Region α) :
    Prop :=
  access.answer big = access.answer little ∧
    Mirrored spans (access.after little) (access.after big)

theorem Mirrors.map {α β : Type} {spans : List Span} {little big : Region}
    {access : Access Region α} (alike : Mirrors spans little big access) (f : α → β) :
    Mirrors spans little big (f <$> access) := by
  rw [Mirrors, Access.answer_map, Access.answer_map, Access.after_map, Access.after_map, alike.1]
  exact ⟨rfl, alike.2⟩

namespace Mirrored

variable {spans : List Span} {little big : Region} (mirrored : Mirrored spans little big)

include mirrored

/-- Patches of a span with the bytes of one value in either order. -/
theorem patched {x : Span} (listed : x ∈ spans) (apart : ∀ y ∈ spans, x.SameOrApart y)
    {bytes : List UInt8} (length : bytes.length = x.count) {next next' : Region}
    (put : little.Patched (x.address - little.base.toNat) bytes next)
    (put' : big.Patched (x.address - little.base.toNat) bytes.reverse next') :
    Mirrored spans next next' where
  order_little := put.order_eq.trans mirrored.order_little
  order_big := put'.order_eq.trans mirrored.order_big
  base_eq := by rw [put.base_eq, put'.base_eq, mirrored.base_eq]
  size_eq := by rw [put.size_eq, put'.size_eq, mirrored.size_eq]
  holds y member := by
    have held := mirrored.holds y member
    rwa [Region.Holds, ← put.base_eq, ← put.size_eq] at held
  reversed y member := by
    have held := mirrored.holds x listed
    have held' := mirrored.holds y member
    have before := mirrored.reversed y member
    unfold Region.Holds at held held'
    unfold Region.bytesOf at before ⊢
    rw [mirrored.base_eq] at before
    rw [put'.base_eq, put.base_eq, mirrored.base_eq]
    rcases apart y member with rfl | separate
    · have bytes_eq := put.bytesAt_self
      have bytes_eq' := put'.bytesAt_self
      rw [List.length_reverse] at bytes_eq'
      rw [length] at bytes_eq bytes_eq'
      rw [bytes_eq, bytes_eq']
    · rw [put.bytesAt_apart (by omega), put'.bytesAt_apart (by rw [List.length_reverse]; omega),
        before]
  zero i outside := by
    have held := mirrored.holds x listed
    rw [put.base_eq] at outside
    have beyond := outside x listed
    unfold Span.Covers at beyond
    unfold Region.Holds at held
    rw [put.byte_eq, put'.byte_eq, List.length_reverse, if_neg (by omega), if_neg (by omega)]
    exact mirrored.zero i outside

section Access

variable {M : Model} (p : Pointer M) (offset : Offset M)

/-- The same value is found in both regions, or in neither. -/
theorem fetch_eq {s : Scalar} (listed : p.Inside little s offset → p.span s offset ∈ spans) :
    p.fetch big s offset = p.fetch little s offset := by
  have same := p.inside_congr offset (t := s) mirrored.base_eq mirrored.size_eq
  by_cases inside : p.Inside little s offset
  · have bytes : big.bytesAt (p.distance big offset) (s.bytes M) =
        (little.bytesAt (p.distance little offset) (s.bytes M)).reverse :=
      mirrored.reversed _ (listed inside)
    rw [p.fetch_of_inside offset (same.2 inside), p.fetch_of_inside offset inside, bytes,
      mirrored.order_big, mirrored.order_little, ByteOrder.decode_big, List.reverse_reverse]
  · rw [p.fetch_of_not_inside offset (mt same.1 inside), p.fetch_of_not_inside offset inside,
      mirrored.base_eq, mirrored.size_eq]

theorem mirrors_read {s : Scalar}
    (listed : p.Inside little s offset → p.span s offset ∈ spans) :
    Mirrors spans little big (p.read s offset) := by
  constructor
  · rw [Pointer.read, Access.answer_query, Access.answer_query,
      mirrored.fetch_eq p offset listed]
  · rw [Pointer.read, Access.Reads.query, Access.Reads.query]
    exact mirrored

theorem mirrors_write {s : Scalar}
    (listed : p.Inside little s offset → p.span s offset ∈ spans)
    (apart : p.Inside little s offset → ∀ y ∈ spans, (p.span s offset).SameOrApart y)
    (x : s.Carrier M) : Mirrors spans little big (p.write s offset x) := by
  have same := p.inside_congr offset (t := s) mirrored.base_eq mirrored.size_eq
  rcases p.write_cases offset little x with ⟨inside, done, put⟩ | ⟨outside, failed, kept⟩ <;>
    rcases p.write_cases offset big x with ⟨inside', done', put'⟩ | ⟨outside', failed', kept'⟩
  · constructor
    · rw [done, done']
    · rw [mirrored.order_little] at put
      rw [mirrored.order_big, Pointer.distance, mirrored.base_eq, Pointer.code,
        ByteOrder.encode_big] at put'
      exact mirrored.patched (listed inside) (apart inside) (Pointer.length_code _ _) put put'
  · exact absurd (same.2 inside) outside'
  · exact absurd (same.1 inside') outside
  · constructor
    · rw [failed, failed', mirrored.base_eq, mirrored.size_eq]
    · rw [kept, kept']
      exact mirrored

theorem mirrors_swap {k : SwapKind}
    (listed : p.Aligned offset k ∧ p.Inside little k.scalar offset →
      p.span k.scalar offset ∈ spans)
    (apart : p.Aligned offset k ∧ p.Inside little k.scalar offset →
      ∀ y ∈ spans, (p.span k.scalar offset).SameOrApart y)
    (expected new : k.scalar.Carrier M) :
    Mirrors spans little big (p.swap offset k expected new) := by
  have same := p.inside_congr offset (t := k.scalar) mirrored.base_eq mirrored.size_eq
  by_cases aligned : p.Aligned offset k
  · by_cases inside : p.Inside little k.scalar offset
    · have fetch_eq := mirrored.fetch_eq p offset fun _ => listed ⟨aligned, inside⟩
      have written := mirrored.mirrors_write p offset (fun _ => listed ⟨aligned, inside⟩)
        (fun _ => apart ⟨aligned, inside⟩) new
      obtain ⟨held, next, fetched, done, found, missed⟩ :=
        p.swap_of_inside offset k expected new aligned inside
      obtain ⟨held', next', fetched', done', found', missed'⟩ :=
        p.swap_of_inside offset k expected new aligned (same.2 inside)
      rw [fetch_eq, fetched] at fetched'
      cases fetched'
      constructor
      · rw [Access.answer_of_ok done, Access.answer_of_ok done']
      · rw [Access.after_of_ok done, Access.after_of_ok done']
        by_cases equal : held = expected
        · rw [found equal, found' equal]
          exact written.2
        · rw [missed equal, missed' equal]
          exact mirrored
    · have failed := p.swap_of_not_inside offset k expected new aligned inside
      have failed' := p.swap_of_not_inside offset k expected new aligned (mt same.1 inside)
      constructor
      · rw [Access.answer_of_error failed, Access.answer_of_error failed', mirrored.base_eq,
          mirrored.size_eq]
      · rw [Access.after_of_error failed, Access.after_of_error failed']
        exact mirrored
  · have failed (r : Region) := p.swap_of_not_aligned (r := r) offset k expected new aligned
    constructor
    · rw [Access.answer_of_error (failed little), Access.answer_of_error (failed big)]
    · rw [Access.after_of_error (failed little), Access.after_of_error (failed big)]
      exact mirrored

end Access

section Copy

variable {M : Model} (p : Pointer M) (displacement first : Int32) (target : Nat)

/-- The same element is found in both regions. -/
theorem elementFrom_eq {s : Scalar} (i count : Nat)
    (listed : ∀ x ∈ p.elementSpans little s displacement first i (count + 1), x ∈ spans) :
    p.elementFrom big s displacement first i = p.elementFrom little s displacement first i := by
  rw [Pointer.elementSpans] at listed
  rw [Pointer.elementFrom, Pointer.elementFrom]
  cases index_eq : exactIndex (first.toInt + (wrapIndex i).toInt) with
  | error fault => rfl
  | ok index =>
      simp only [index_eq] at listed
      refine mirrored.fetch_eq p _ fun inside => ?_
      rw [if_pos inside] at listed
      exact listed _ List.mem_cons_self

/-- The same elements are copied out of both regions. -/
theorem copyFrom_eq {s : Scalar} (i count : Nat) (dst : Array (s.Carrier M))
    (listed : ∀ x ∈ p.elementSpans little s displacement first i count, x ∈ spans) :
    p.copyFrom big s displacement first target i count dst =
      p.copyFrom little s displacement first target i count dst := by
  induction count generalizing i dst with
  | zero => rfl
  | succ count ih =>
      rw [Pointer.copyFrom, Pointer.copyFrom,
        mirrored.elementFrom_eq p displacement first i count listed]
      cases found : p.elementFrom little s displacement first i with
      | error fault => rfl
      | ok value =>
          obtain ⟨x, reached⟩ := p.elementSpans_of_ok little s found count
          rw [reached] at listed
          exact ih (i + 1) _ fun y later => listed y (List.mem_cons_of_mem x later)

theorem copyScalars_eq {s : Scalar} (count : Nat) (dst : Array (s.Carrier M))
    (listed : target + count < UInt64.size ∧ target + count ≤ dst.size →
      ∀ x ∈ p.elementSpans little s displacement first 0 count, x ∈ spans) :
    p.copyScalars big s displacement first target count dst =
      p.copyScalars little s displacement first target count dst :=
  p.copyScalars_congr s fun fits =>
    mirrored.copyFrom_eq p displacement first target 0 count dst (listed fits)

theorem copyElements_eq {kind : Kind} (count : Nat) (dst : Array (kind.Carrier M))
    (listed : ∀ x ∈ (TypedStep.copy p kind displacement first target count dst).spans little,
      x ∈ spans) :
    p.copyElements big displacement first target count kind dst =
      p.copyElements little displacement first target count kind dst := by
  cases kind with
  | void => rfl
  | scalar s =>
      have copied := mirrored.copyScalars_eq p displacement first target (s := s) count dst
        fun fits x reached => listed x (TypedStep.mem_spans_copy fits reached)
      exact congrArg (fun result => (result.1, result.2.map CopyError.fault)) copied

end Copy

/-! ## Steps and runs -/

variable {M : Model}

/-- A step answers alike in mirrored regions and leaves mirrored regions, if what it stores does
not overlap a part of a span. -/
theorem mirrors_access (step : TypedStep M) (listed : ∀ x ∈ step.spans little, x ∈ spans)
    (apart : step.Stores → ∀ x ∈ step.spans little, ∀ y ∈ spans, x.SameOrApart y) :
    Mirrors spans little big step.access := by
  cases step with
  | read p s offset =>
      have alike := mirrored.mirrors_read p offset (s := s) (by
        intro inside
        exact listed _ (by simp [TypedStep.spans, inside]))
      exact alike.map _
  | write p s offset x =>
      have member (inside : p.Inside little s offset) :
          p.span s offset ∈ (TypedStep.write p s offset x).spans little := by
        simp [TypedStep.spans, inside]
      exact (mirrored.mirrors_write p offset (fun inside => listed _ (member inside))
        (fun inside => apart trivial _ (member inside)) x).map _
  | swap p offset k expected new =>
      have member (reached : p.Aligned offset k ∧ p.Inside little k.scalar offset) :
          p.span k.scalar offset ∈ (TypedStep.swap p offset k expected new).spans little := by
        simp [TypedStep.spans, reached]
      exact (mirrored.mirrors_swap p offset (fun reached => listed _ (member reached))
        (fun reached => apart trivial _ (member reached)) expected new).map _
  | copy p kind displacement first target count dst =>
      constructor
      · rw [TypedStep.access, Access.answer_query, Access.answer_query,
          mirrored.copyElements_eq p displacement first target count dst listed]
      · rw [TypedStep.access, Access.Reads.query, Access.Reads.query]
        exact mirrored

theorem mirrors_run (steps : List (TypedStep M))
    (listed : ∀ step ∈ steps, ∀ x ∈ step.spans little, x ∈ spans)
    (apart : ∀ step ∈ steps, step.Stores → ∀ x ∈ step.spans little, ∀ y ∈ spans,
      x.SameOrApart y) :
    (TypedStep.run big steps).1 = (TypedStep.run little steps).1 ∧
      Mirrored spans (TypedStep.run little steps).2 (TypedStep.run big steps).2 := by
  induction steps generalizing little big with
  | nil => exact ⟨rfl, mirrored⟩
  | cons step rest ih =>
      obtain ⟨listed_first, listed_rest⟩ := List.forall_mem_cons.1 listed
      obtain ⟨apart_first, apart_rest⟩ := List.forall_mem_cons.1 apart
      obtain ⟨answers, after⟩ := mirrored.mirrors_access step listed_first apart_first
      obtain ⟨base_eq, size_eq⟩ := step.place_access little
      have same (other : TypedStep M) := other.spans_congr base_eq size_eq
      obtain ⟨replies, last⟩ := ih after (by simpa only [same] using listed_rest)
        (by simpa only [same] using apart_rest)
      exact ⟨congrArg₂ List.cons answers replies, last⟩

end Mirrored

/-- Fresh regions are mirrored, whatever spans of them are meant. -/
theorem mirrored_zeros {base : BitVec 64} {size : Nat} {little big : Region}
    (made : Region.zeros base size .little = .ok little)
    (made' : Region.zeros base size .big = .ok big) {spans : List Span}
    (holds : ∀ x ∈ spans, little.Holds x) : Mirrored spans little big where
  order_little := (Region.fields_of_zeros made).2.2.1
  order_big := (Region.fields_of_zeros made').2.2.1
  base_eq := by rw [(Region.fields_of_zeros made).1, (Region.fields_of_zeros made').1]
  size_eq := by rw [(Region.fields_of_zeros made).2.1, (Region.fields_of_zeros made').2.1]
  holds := holds
  reversed x _ := by
    have zeros (r : Region) (distance count : Nat) (zero : ∀ i, r.byte i = 0) :
        r.bytesAt distance count = List.replicate count 0 := by
      have constant : r.byte = Function.const Nat 0 := funext zero
      rw [Region.bytesAt, constant, List.map_const, List.length_range']
    rw [Region.bytesOf, Region.bytesOf, zeros big _ _ (Region.byte_of_zeros made'),
      zeros little _ _ (Region.byte_of_zeros made), List.reverse_replicate]
  zero i _ := ⟨Region.byte_of_zeros made i, Region.byte_of_zeros made' i⟩

namespace TypedStep

variable {M : Model}

/-- The spans that two steps reach are the same or have no byte in common. -/
def Separate (r : Region) (first second : TypedStep M) : Prop :=
  ∀ x ∈ first.spans r, ∀ y ∈ second.spans r, x.SameOrApart y

instance (r : Region) (first second : TypedStep M) : Decidable (Separate r first second) :=
  inferInstanceAs (Decidable (∀ x ∈ first.spans r, ∀ y ∈ second.spans r, x.SameOrApart y))

instance (r : Region) : Std.Symm (Separate r : TypedStep M → TypedStep M → Prop) where
  symm _ _ separate y inSecond x inFirst := (separate x inFirst y inSecond).symm

/-- **The byte order of a region cannot be seen.** Run a program on two fresh regions of the
same place and of opposite orders. If any two of its steps reach the same spans or spans without
common bytes, then each step gives the same reply or the same fault in both. In the end every
span that has been reached has its bytes in one region in reverse of those in the other, and all
bytes outside the spans are zero in both. -/
theorem run_little_eq_run_big {base : BitVec 64} {size : Nat} {little big : Region}
    (made : Region.zeros base size .little = .ok little)
    (made' : Region.zeros base size .big = .ok big) (steps : List (TypedStep M))
    (separate : steps.Pairwise (Separate little)) :
    (run little steps).1 = (run big steps).1 ∧
    (∀ step ∈ steps, ∀ x ∈ step.spans little,
      (run big steps).2.bytesOf x = ((run little steps).2.bytesOf x).reverse) ∧
    ∀ i, (∀ step ∈ steps, ∀ x ∈ step.spans little, ¬ x.Covers (base.toNat + i)) →
      (run little steps).2.byte i = 0 ∧ (run big steps).2.byte i = 0 := by
  let all := steps.flatMap (spans little)
  have reached {x : Span} : x ∈ all ↔ ∃ step ∈ steps, x ∈ step.spans little := List.mem_flatMap
  have fresh : Mirrored all little big := mirrored_zeros made made' (by
    intro x member
    obtain ⟨step, -, inStep⟩ := reached.1 member
    exact holds_spans inStep)
  have apart : ∀ step ∈ steps, step.Stores → ∀ x ∈ step.spans little, ∀ y ∈ all,
      x.SameOrApart y := by
    intro step listed stores x inStep y member
    obtain ⟨other, listed', inOther⟩ := reached.1 member
    by_cases same : step = other
    · rw [eq_of_mem_spans stores inStep (same ▸ inOther)]
      exact .refl y
    · exact separate.forall listed listed' same x inStep y inOther
  obtain ⟨replies, last⟩ := fresh.mirrors_run steps
    (fun step listed x inStep => reached.2 ⟨step, listed, inStep⟩) apart
  refine ⟨replies.symm, ?_, ?_⟩
  · intro step listed x inStep
    exact last.reversed x (reached.2 ⟨step, listed, inStep⟩)
  · intro i outside
    apply last.zero i
    intro x member
    obtain ⟨step, listed, inStep⟩ := reached.1 member
    rw [(place_run steps little).1, (Region.fields_of_zeros made).1]
    exact outside step listed x inStep

/-- A swap of an int, a copy of two shorts, an int read as a float, and steps that fail. -/
theorem run_little_eq_run_big_of_int :
    let p : Pointer .target32 := ⟨.ofBits 0x1000⟩
    let steps : List (TypedStep .target32) :=
      [.write p .int (.ofInt 8) (0x01020304 : Int32),
        .write p .short (.ofInt 2) (0x0506 : Int16),
        .swap p (.ofInt 8) .int (0x01020304 : Int32) (0x0708090a : Int32),
        .swap p (.ofInt 2) .int (0 : Int32) (1 : Int32),
        .write p .long (.ofInt 8) (1 : Int64),
        .copy p (.scalar .short) 0 0 1 2 (#[0, 0, 0] : Array Int16),
        .read p .float (.ofInt 8)]
    ∃ little big, Region.zeros 0x1000 13 .little = .ok little ∧
      Region.zeros 0x1000 13 .big = .ok big ∧ steps.Pairwise (Separate little) ∧
      (run little steps).1 = (run big steps).1 ∧
      (run big steps).2.bytesOf ⟨0x1008, 4⟩ =
        ((run little steps).2.bytesOf ⟨0x1008, 4⟩).reverse := by
  intro p steps
  refine ⟨_, _, rfl, rfl, by decide, ?_⟩
  obtain ⟨replies, reversed, -⟩ :=
    run_little_eq_run_big (show Region.zeros 0x1000 13 .little = .ok _ from rfl)
      (show Region.zeros 0x1000 13 .big = .ok _ from rfl) steps (by decide)
  exact ⟨replies, reversed (.read p .float (.ofInt 8)) (by simp [steps]) _ (by decide)⟩

end TypedStep

end MachineWord
