import Mathlib
import MachineWord.Cursor.Region
import MachineWord.Proofs.Mode.Pointers
import MachineWord.Proofs.Mode.Registers

/-!
# Observational equality of the modes

A program for a cursor in a region has the same answers in every mode, changes the region in
the same way and moves the pointer to the same addresses (`Region.run_inMode`). Together with
the programs for registers this gives `modes_agree`: words of one size that are kept as host
numbers and words that are kept as patterns cannot be told apart.
-/

set_option autoImplicit false

namespace MachineWord

variable {s : WordSize} {m : Mode} (n : Mode)

theorem Value.distinct_inMode {v : View} (values : List (Value ⟨s, m⟩ v)) :
    distinct (values.map (inMode n)) = (distinct values).map (inMode n) := by
  induction values with
  | nil => rfl
  | cons x rest ih =>
      have member : x.inMode n ∈ rest.map (inMode n) ↔ x ∈ rest :=
        List.mem_map_of_injective fun _ _ => (inMode_inj n).1
      rw [List.map_cons, distinct, distinct, ih]
      by_cases again : x ∈ rest
      · rw [if_pos again, if_pos (member.2 again)]
      · rw [if_neg again, if_neg (mt member.1 again), List.map_cons]

theorem Pointer.equals_inMode (p : Pointer ⟨s, m⟩) (pattern : BitVec 64) :
    (p.inMode n == ⟨.ofBits pattern⟩) = (p == ⟨.ofBits pattern⟩) := by
  apply decide_eq_decide.2
  cases p with
  | mk address =>
      rw [Pointer.inMode, Pointer.mk.injEq, Pointer.mk.injEq, ← Value.inMode_ofBits (m := m) n,
        Value.inMode_inj]

namespace Cursor

/-! ## Uses of the pointer -/

section Uses

variable {μ : Type} [Block μ] (p : Pointer ⟨s, m⟩) (t : Scalar)

theorem offset_inMode (y : Operand) :
    (.ofBits (y.pattern ⟨s, n⟩) : Offset ⟨s, n⟩) =
      (.ofBits (y.pattern ⟨s, m⟩) : Offset ⟨s, m⟩).inMode n :=
  (Value.inMode_ofBits n _).symm

theorem readAt_inMode (place : Place) :
    (readAt (p.inMode n) t place : Access μ _) = t.inMode n <$> readAt p t place := by
  cases place with
  | offset y => rw [readAt, offset_inMode (m := m), Pointer.read_inMode, readAt]
  | element displacement index => exact p.get_inMode n t displacement index
  | index index => exact p.get_inMode n t 0 index
  | here => exact p.get_inMode n t 0 0

theorem writeAt_inMode (x : t.Carrier ⟨s, m⟩) (place : Place) :
    (writeAt (p.inMode n) t (t.inMode n x) place : Access μ Unit) = writeAt p t x place := by
  cases place with
  | offset y => rw [writeAt, offset_inMode (m := m), Pointer.write_inMode, writeAt]
  | element displacement index => exact p.set_inMode n t displacement index x
  | index index => exact p.set_inMode n t 0 index x
  | here => exact p.set_inMode n t 0 0 x

theorem copied_inMode (memory : μ) (kind : Kind) (displacement first : Int32)
    (dst : List (BitVec 64)) (target count : Nat) :
    copied memory (p.inMode n) kind displacement first dst target count =
      copied memory p kind displacement first dst target count := by
  have patterns : (dst.map (kind.ofPattern ⟨s, n⟩)).toArray =
      (dst.map (kind.ofPattern ⟨s, m⟩)).toArray.map (kind.inMode n) := by
    rw [List.map_toArray, List.map_map]
    exact congrArg List.toArray (List.map_congr_left fun pattern _ =>
      kind.ofPattern_inMode n pattern)
  rw [copied, copied, patterns, Pointer.copyElements_inMode]
  generalize p.copyElements memory displacement first target count kind _ = outcome
  have data : (outcome.1.map (kind.inMode n)).toList.map (kind.datum ⟨s, n⟩) =
      outcome.1.toList.map (kind.datum ⟨s, m⟩) := by
    rw [Array.toList_map, List.map_map]
    exact List.map_congr_left fun x _ => kind.datum_inMode n x
  exact congrArg (Answer.copied · outcome.2) data

/-- A use of the pointer does the same in every mode. -/
theorem access_inMode (u : Use) : (access (p.inMode n) u : Access μ Answer) = access p u := by
  cases u with
  | read t place =>
      rw [access, access, readAt_inMode]
      simp only [bind_map_left, Scalar.datum_inMode]
  | write t place pattern => rw [access, access, t.ofPattern_inMode n, writeAt_inMode]
  | swapInt y expected new =>
      rw [access, access, offset_inMode (m := m), Pointer.swapInt_inMode]
  | swapWord view y expected new =>
      rw [access, access, offset_inMode (m := m), ← Value.inMode_ofBits (m := m) n expected,
        ← Value.inMode_ofBits (m := m) n new, Pointer.swapWord_inMode]
      simp only [bind_map_left, toString, Value.text_inMode]
  | setMapBit bit => rw [access, access, Pointer.setMapBit_inMode]
  | orMapBits bit mask => rw [access, access, Pointer.orMapBits_inMode]
  | copy kind displacement first dst target count => simp only [access, copied_inMode]
  | dump count => simp only [access, Pointer.dump_inMode]
  | equals pattern => rw [access, access, Pointer.equals_inMode]
  | distinct patterns =>
      have addresses : (patterns.map fun q => (.ofBits q : Address ⟨s, n⟩)) =
          (patterns.map fun q => (.ofBits q : Address ⟨s, m⟩)).map (Value.inMode n) := by
        rw [List.map_map]
        exact List.map_congr_left fun q _ => (Value.inMode_ofBits n q).symm
      rw [access, access, addresses, Value.distinct_inMode, List.length_map]
  | _ => rfl

end Uses

/-! ## Steps -/

/-- The cursor at the same address in another mode. -/
def inMode {μ : Type} (c : Cursor ⟨s, m⟩ μ) : Cursor ⟨s, n⟩ μ := ⟨c.memory, c.pointer.inMode n⟩

theorem pointer_inMode (r : Region) (distance : Nat) :
    r.pointer ⟨s, n⟩ distance = (r.pointer ⟨s, m⟩ distance).map (Pointer.inMode n) := by
  have address (pattern : BitVec 64) :
      (⟨.ofBits pattern⟩ : Pointer ⟨s, n⟩) =
        Pointer.inMode n (⟨.ofBits pattern⟩ : Pointer ⟨s, m⟩) :=
    congrArg Pointer.mk (Value.inMode_ofBits n pattern).symm
  rw [Region.pointer, Region.pointer, address]
  change (if r.size ≠ 0 ∧ (Model.mask ⟨s, m⟩).toNat < r.stop.toNat - 1 then _ else _) = _
  split
  · rfl
  · split <;> rfl

theorem target_inMode (r : Region) (p : Pointer ⟨s, m⟩) (move : Move) :
    target r (p.inMode n) move = (target r p move).map (Pointer.inMode n) := by
  have distance (k : Int32) :
      (Pointer.wordOffset ⟨s, n⟩ k).operand = (Pointer.wordOffset ⟨s, m⟩ k).operand := by
    have number : (.ofInt k : Offset ⟨s, n⟩) = (.ofInt k : Offset ⟨s, m⟩).inMode n :=
      (Value.inMode_ofBits n _).symm
    rw [Pointer.wordOffset, number, Value.mul_inMode, Value.operand_inMode]
    rfl
  cases move with
  | jump distance =>
      change (r.pointer ⟨s, n⟩ distance).mapError StepError.fault = _
      rw [pointer_inMode (m := m)]
      change _ = ((r.pointer ⟨s, m⟩ distance).mapError StepError.fault).map _
      cases r.pointer ⟨s, m⟩ distance <;> rfl
  | place seed => exact congrArg (fun x => Except.ok (Pointer.mk x)) (seed.value_inMode n)
  | operate op =>
      have performed : op.perform? (p.inMode n).address =
          (op.perform? p.address).map (Except.map (Value.inMode n)) :=
        op.perform?_inMode n p.address
      rw [target, target, performed]
      rcases op.perform? p.address with _ | _ | _ <;> rfl
  | addWords k =>
      rw [target, target, Pointer.addWords, distance]
      exact congrArg (fun x => Except.ok (Pointer.mk x)) (p.address.add_inMode n _)
  | subWords k =>
      rw [target, target, Pointer.subWords, distance]
      exact congrArg (fun x => Except.ok (Pointer.mk x)) (p.address.sub_inMode n _)

theorem step_inMode (c : Cursor ⟨s, m⟩ Region) (action : Step) :
    (c.inMode n).step action = ((c.step action).1, (c.step action).2.inMode n) := by
  cases action with
  | use u =>
      have same : access (c.inMode n).pointer u (c.inMode n).memory = access c.pointer u c.memory :=
        congrFun (access_inMode n c.pointer u) c.memory
      rw [step, step, same]
      cases access c.pointer u c.memory <;> rfl
  | move move =>
      have moved : target (c.inMode n).memory (c.inMode n).pointer move =
          (target c.memory c.pointer move).map (Pointer.inMode n) :=
        target_inMode n c.memory c.pointer move
      rw [step, step, moved]
      cases target c.memory c.pointer move with
      | ok pointer =>
          exact congrArg (fun bits => (Except.ok (Answer.moved bits), Cursor.mk c.memory _))
            (pointer.address.bits_inMode n)
      | error cause => rfl
  | query q =>
      exact congrArg (fun answer => (Except.map Answer.answer answer, c.inMode n))
        (q.ask_inMode n c.pointer.address)

end Cursor

/-! ## Programs -/

namespace Region

variable (c : Cursor ⟨s, m⟩ Region)

theorem step_inMode (action : Step) :
    step (c.inMode n) action = ((step c action).1, (step c action).2.inMode n) := by
  cases action with
  | cursor action =>
      exact congrArg (fun result => (Except.map Answer.cursor result.1, result.2))
        (c.step_inMode n action)
  | _ => rfl

/-- A program has the same answers in every mode, leaves the same region, and leaves the
pointer at the same address. -/
theorem run_inMode (program : List Step) :
    run (c.inMode n) program = ((run c program).1, (run c program).2.inMode n) := by
  induction program generalizing c with
  | nil => rfl
  | cons action rest ih =>
      rw [run, run, step_inMode]
      generalize step c action = result
      obtain ⟨answer, next⟩ := result
      change (answer :: (run (next.inMode n) rest).1, (run (next.inMode n) rest).2) = _
      rw [ih]

end Region

/-- **The modes cannot be told apart.** Take words of one size, kept as host numbers on one
side and as patterns on the other. Every program for a register has the same answers and
faults, and leaves values of which the same can be said. A step that fails on one side fails
for the same cause on the other, and leaves both registers as they were. The same values are
read from digits and from bytes. From equal regions and equal addresses, every program for a
cursor has the same answers and faults, and leaves equal regions and equal addresses. -/
theorem modes_agree (s : WordSize) :
    (∀ view seed program,
      let hosted := (Register.start view seed : Register ⟨s, .hosted⟩).run program
      let target := (Register.start view seed : Register ⟨s, .target⟩).run program
      hosted.1 = target.1 ∧ hosted.2.view = target.2.view ∧
        Query.description hosted.2.value = Query.description target.2.value ∧
        ∀ action cause, hosted.2.step action = .error cause →
          target.2.step action = .error cause ∧
          ((Register.start view seed : Register ⟨s, .hosted⟩).run (program ++ [action])).2 =
            hosted.2 ∧
          ((Register.start view seed : Register ⟨s, .target⟩).run (program ++ [action])).2 =
            target.2) ∧
    (∀ radix text,
      (Address.parse radix text : Except ParseError (Address ⟨s, .hosted⟩)).map Value.bits =
        (Address.parse radix text : Except ParseError (Address ⟨s, .target⟩)).map Value.bits) ∧
    (∀ (view : View) (order : ByteOrder) (stream : List UInt8),
      (Value.read? order stream : Option (Value ⟨s, .hosted⟩ view × List UInt8)).map
          (fun (x, rest) => (x.bits, rest)) =
        (Value.read? order stream : Option (Value ⟨s, .target⟩ view × List UInt8)).map
          fun (x, rest) => (x.bits, rest)) ∧
    (∀ (r : Region) (address : BitVec 64) (program : List Region.Step),
      let hosted := Region.run ⟨r, (⟨.ofBits address⟩ : Pointer ⟨s, .hosted⟩)⟩ program
      let target := Region.run ⟨r, (⟨.ofBits address⟩ : Pointer ⟨s, .target⟩)⟩ program
      hosted.1 = target.1 ∧ hosted.2.memory = target.2.memory ∧
        hosted.2.pointer.address.bits = target.2.pointer.address.bits) := by
  refine ⟨?_, ?_, ?_, ?_⟩
  · intro view seed program hosted target
    have moved : target = (hosted.1, hosted.2.inMode .target) := by
      change (Register.start view seed : Register ⟨s, .target⟩).run program = _
      rw [Register.start_inMode (m := .hosted), Register.run_inMode]
    rw [moved]
    refine ⟨rfl, rfl, (Query.description_inMode .target hosted.2.value).symm, ?_⟩
    intro action cause failed
    have failed' : (hosted.2.inMode .target).step action = .error cause := by
      rw [Register.step_inMode, failed]
      rfl
    have kept := Register.run_append_of_error _ failed
    refine ⟨failed', kept, ?_⟩
    rw [Register.start_inMode (m := .hosted), Register.run_inMode]
    exact congrArg (Register.inMode .target) kept
  · intro radix text
    rw [Address.parse_inMode (m := .target)]
    cases (Address.parse radix text : Except ParseError (Address ⟨s, .target⟩)) with
    | ok x => exact congrArg Except.ok (x.bits_inMode .hosted)
    | error cause => rfl
  · intro view order stream
    rw [Value.read?_inMode (m := .target)]
    rcases (Value.read? order stream : Option (Value ⟨s, .target⟩ view × List UInt8)) with
      _ | ⟨x, rest⟩
    · rfl
    · exact congrArg (fun bits => some (bits, rest)) (x.bits_inMode .hosted)
  · intro r address program hosted target
    have moved : target = (hosted.1, hosted.2.inMode .target) := by
      have start : (⟨.ofBits address⟩ : Pointer ⟨s, .target⟩) =
          Pointer.inMode .target (⟨.ofBits address⟩ : Pointer ⟨s, .hosted⟩) :=
        congrArg Pointer.mk (Value.inMode_ofBits (m := .hosted) .target address).symm
      change Region.run ⟨r, (⟨.ofBits address⟩ : Pointer ⟨s, .target⟩)⟩ program = _
      rw [start]
      exact Region.run_inMode .target ⟨r, ⟨.ofBits address⟩⟩ program
    rw [moved]
    exact ⟨rfl, rfl, (hosted.2.pointer.address.bits_inMode .target).symm⟩

end MachineWord
