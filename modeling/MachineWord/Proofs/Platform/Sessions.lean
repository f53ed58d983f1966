import Mathlib
import MachineWord.Platform.Session
import MachineWord.Proofs.Memory.Refinement
import MachineWord.Proofs.Memory.Typed

/-!
# The platform of a session

A session is open until a platform is installed, by a request or by the first question, and
settled from then on. In an open session a request for native words is granted and a question
installs the native platform; a settled session answers every question by its platform and
refuses every request (`Settled`). Requests for other words are refused in both.

The platform of every session that a program reaches has the native words (`sound_run`), since
no other one is installed. So a program is granted one request at most, and none after a
question (`count_installed_le`, `not_installed_of_settled`).
-/

set_option autoImplicit false

namespace MachineWord

/-- The words of the platform are those that the process is made for. -/
def Platform.HasNativeWords (p : Platform) : Prop :=
  p.width = Platform.native.width ∧ p.mode = Platform.native.mode

instance (p : Platform) : Decidable p.HasNativeWords := inferInstanceAs (Decidable (_ ∧ _))

namespace Session

/-- A step that asks for something that depends on the platform. -/
def Step.Asks : Step → Prop
  | .install _ => False
  | .native => False
  | .platform => True
  | .order => True
  | .region _ => True
  | .newRegion _ _ => True
  | .write _ => True
  | .read _ => True
  | .readWord _ => True

/-- No platform with other words is installed. -/
def Sound (p : Session) : Prop := ∀ found, p.installed = some found → found.HasNativeWords

/-- The session has a platform, which answers every question and stays. -/
structure Settled (p : Session) (found : Platform) : Prop where
  words : found.HasNativeWords
  stays (later : List Step) : (p.run later).2 = p
  platform : p.step .platform = (.platform found, p)
  order : p.step .order = (.order found.order, p)
  region (base : BitVec 64) (size : Nat) :
    p.newRegion base size = (Region.zeros base size found.order, p)
  write {M : Model} {v : View} (x : Value M v) (stream : List UInt8) :
    p.write x stream = (x.write found.order stream, p)
  read {M : Model} {v : View} (stream : List UInt8) :
    (p.read? stream : Option (Value M v × List UInt8) × Session) =
      (Value.read? found.order stream, p)

variable {p : Session} {found : Platform}

/-! ## Single steps -/

theorem step_install_of_mismatch {requested : Platform} (mismatch : ¬ requested.HasNativeWords) :
    p.step (.install requested) = (.notInstalled (.modelMismatch requested .native), p) := by
  have refused : requested.install p.installed = .error (.modelMismatch requested .native) :=
    if_pos (not_and_or.1 mismatch)
  rw [step, refused]

theorem step_install_of_native {requested : Platform} (words : requested.HasNativeWords) :
    p.step (.install requested) =
      match p.installed with
      | none => (.installed, ⟨some requested⟩)
      | some _ => (.notInstalled .alreadyInstalled, p) := by
  have same : ¬ (requested.width ≠ Platform.native.width ∨
      requested.mode ≠ Platform.native.mode) := by
    rintro (other | other)
    · exact other words.1
    · exact other words.2
  have checked : requested.install p.installed =
      match p.installed with
      | none => .ok requested
      | some _ => .error .alreadyInstalled := if_neg same
  rw [step, checked]
  cases p.installed <;> rfl

/-- A question installs the native platform if there is none. -/
theorem step_of_asks {s : Step} (asks : s.Asks) (p : Session) : (p.step s).2 = p.current.2 := by
  cases s with
  | install => exact absurd asks id
  | native => exact absurd asks id
  | _ => rfl

/-- A question is answered as it is when it is asked once more. -/
theorem step_current_of_asks {s : Step} (asks : s.Asks) (p : Session) :
    p.current.2.step s = p.step s := by
  cases s with
  | install => exact absurd asks id
  | native => exact absurd asks id
  | _ => rfl

theorem Answer.ofRegion_ne_installed (made : Except Fault Region) :
    Answer.ofRegion made ≠ .installed := by
  cases made with
  | error cause => exact nofun
  | ok r =>
      rw [Answer.ofRegion]
      cases r.snapshot <;> exact nofun

theorem Answer.ofRead_ne_installed {M : Model} {v : View}
    (found : Option (Value M v × List UInt8)) : Answer.ofRead found ≠ .installed := by
  cases found <;> exact nofun

/-- A step grants a request for native words in an open session. Every other step leaves the
session as it is or is a question. -/
theorem step_cases (p : Session) (s : Step) :
    (∃ requested : Platform, requested.HasNativeWords ∧ p.installed = none ∧
      p.step s = (.installed, ⟨some requested⟩)) ∨
    ((p.step s).1 ≠ .installed ∧ ((p.step s).2 = p ∨ (p.step s).2 = p.current.2)) := by
  cases s with
  | install requested =>
      by_cases words : requested.HasNativeWords
      · rw [step_install_of_native words]
        cases installed : p.installed with
        | none => exact .inl ⟨requested, words, rfl, rfl⟩
        | some found => exact .inr ⟨nofun, .inl rfl⟩
      · rw [step_install_of_mismatch words]
        exact .inr ⟨nofun, .inl rfl⟩
  | native => exact .inr ⟨nofun, .inl rfl⟩
  | platform => exact .inr ⟨nofun, .inr rfl⟩
  | order => exact .inr ⟨nofun, .inr rfl⟩
  | region n => exact .inr ⟨Answer.ofRegion_ne_installed _, .inr rfl⟩
  | newRegion base size => exact .inr ⟨Answer.ofRegion_ne_installed _, .inr rfl⟩
  | write n => exact .inr ⟨nofun, .inr rfl⟩
  | read bytes => exact .inr ⟨Answer.ofRead_ne_installed _, .inr rfl⟩
  | readWord bytes => exact .inr ⟨Answer.ofRead_ne_installed _, .inr rfl⟩

theorem sound_step (sound : p.Sound) (s : Step) : (p.step s).2.Sound := by
  rcases p.step_cases s with ⟨requested, words, -, granted⟩ | ⟨-, unchanged | asked⟩
  · rw [granted]
    rintro _ ⟨⟩
    exact words
  · rw [unchanged]
    exact sound
  · rw [asked]
    rintro _ ⟨⟩
    cases installed : p.installed with
    | none => exact ⟨rfl, rfl⟩
    | some found => exact sound found installed

section Installed

variable (installed : p.installed = some found)

include installed

theorem current_of_installed : p.current = (found, p) := by
  cases p
  cases installed
  rfl

theorem step_of_installed (s : Step) : (p.step s).1 ≠ .installed ∧ (p.step s).2 = p := by
  rcases p.step_cases s with ⟨requested, -, open_, -⟩ | ⟨other, unchanged | asked⟩
  · rw [installed] at open_
    cases open_
  · exact ⟨other, unchanged⟩
  · rw [current_of_installed installed] at asked
    exact ⟨other, asked⟩

/-! ## Runs -/

/-- An installed platform stays, and no request is granted any more. -/
theorem run_of_installed (later : List Step) :
    .installed ∉ (p.run later).1 ∧ (p.run later).2 = p := by
  induction later with
  | nil => exact ⟨List.not_mem_nil, rfl⟩
  | cons s later ih =>
      obtain ⟨other, unchanged⟩ := step_of_installed installed s
      change .installed ∉ (p.step s).1 :: ((p.step s).2.run later).1 ∧
        ((p.step s).2.run later).2 = p
      rw [unchanged]
      refine ⟨?_, ih.2⟩
      intro granted
      rcases List.mem_cons.1 granted with now | later_on
      · exact other now.symm
      · exact ih.1 later_on

end Installed

theorem count_installed_le (p : Session) (program : List Step) :
    (p.run program).1.count .installed ≤ 1 := by
  induction program generalizing p with
  | nil => exact Nat.zero_le 1
  | cons s program ih =>
      change ((p.step s).1 :: ((p.step s).2.run program).1).count .installed ≤ 1
      rcases p.step_cases s with ⟨requested, -, -, granted⟩ | ⟨other, -⟩
      · have none_later := (run_of_installed (p := ⟨some requested⟩) rfl program).1
        rw [granted, List.count_cons_self, List.count_eq_zero_of_not_mem none_later]
      · rw [List.count_cons_of_ne other]
        exact ih _

theorem sound_run (sound : p.Sound) (program : List Step) : (p.run program).2.Sound := by
  induction program generalizing p with
  | nil => exact sound
  | cons s program ih => exact ih (sound_step sound s)

theorem settled_of_installed (sound : p.Sound) (installed : p.installed = some found) :
    p.Settled found := by
  have known := current_of_installed installed
  constructor
  · exact sound found installed
  · exact fun later => (run_of_installed installed later).2
  · rw [step, known]
  · rw [step, known]
  · intro base size
    rw [newRegion, known]
  · intro M v x stream
    rw [write, known]
  · intro M v stream
    rw [read?, known]

/-! ## Words -/

/-- The bytes of a word, stored in a region that has the order in which they have been written,
are read as the word. -/
theorem read_word_toBytes {M : Model} {r : Region} (x : Word M) (pointer : Pointer M)
    (offset : Offset M) (inside : r.contains (pointer.locate offset) M.bytes = true) :
    ∃ filled, Memory.store r (pointer.locate offset) (x.toBytes r.order) = .ok filled ∧
      (pointer.read .word offset).answer filled = .ok x := by
  have span : r.contains (pointer.locate offset) (x.toBytes r.order).length = true := by
    rwa [x.length_toBytes]
  obtain ⟨filled, stored, -⟩ := Region.store_of_contains span
  -- To store the bytes is to write the word, since memory codes words as streams do.
  have written : pointer.write .word offset x r = .ok () filled := Access.update_of_ok stored
  have found := pointer.fetch_write_self offset (Access.answer_of_ok written)
  rw [Access.after_of_ok written] at found
  exact ⟨filled, stored, (Access.answer_query _ filled).trans found⟩

/-- **A platform is installed once.** In every session that a program reaches from the fresh one,
a request for other than the native words is refused as a mismatch, and one for native words is
granted, with exactly the platform requested, if and only if none is installed. A question
installs the native platform if none is installed. A platform that is installed has the native
words, answers every question, orders every new region and every value written or read, and
stays. So at most one request of a program is granted, and none after a question; a word that is
written is read back later, and found in a later region in which its bytes are stored. -/
theorem platform_installed_once (program : List Step) :
    let p := (fresh.run program).2
    (∀ requested : Platform, ¬ requested.HasNativeWords →
      p.step (.install requested) = (.notInstalled (.modelMismatch requested .native), p)) ∧
    (∀ requested : Platform, requested.HasNativeWords →
      p.step (.install requested) =
        match p.installed with
        | none => (.installed, ⟨some requested⟩)
        | some _ => (.notInstalled .alreadyInstalled, p)) ∧
    (∀ s : Step, s.Asks →
      (p.step s).2 = ⟨some (p.installed.getD .native)⟩ ∧ (p.step s).2.step s = p.step s ∧
        ∀ later, .installed ∉ ((p.step s).2.run later).1) ∧
    (∀ found, p.installed = some found → p.Settled found) ∧
    (fresh.run program).1.count .installed ≤ 1 ∧
    ∀ (M : Model) (x : Word M) (rest : List UInt8) (later : List Step),
      let written := p.write x []
      let q := (written.2.run later).2
      (q.read? (written.1 ++ rest)).1 = some (x, rest) ∧
      ∀ base size r, (q.newRegion base size).1 = .ok r →
        ∀ (pointer : Pointer M) (offset : Offset M),
          r.contains (pointer.locate offset) M.bytes = true →
          ∃ filled, Memory.store r (pointer.locate offset) written.1 = .ok filled ∧
            (pointer.read .word offset).answer filled = .ok x := by
  intro p
  have sound : p.Sound := sound_run (p := fresh) nofun program
  refine ⟨?_, ?_, ?_, ?_, ?_, ?_⟩
  · exact fun requested mismatch => step_install_of_mismatch mismatch
  · exact fun requested words => step_install_of_native words
  · intro s asks
    have asked := step_of_asks asks p
    refine ⟨asked, ?_, ?_⟩
    · rw [asked, step_current_of_asks asks]
    · intro later
      rw [asked]
      exact (run_of_installed rfl later).1
  · exact fun found installed => settled_of_installed sound installed
  · exact count_installed_le fresh program
  · intro M x rest later written q
    have same : q = p.current.2 := (run_of_installed rfl later).2
    refine ⟨?_, ?_⟩
    · rw [same]
      exact x.read?_toBytes_append p.current.1.order rest
    · intro base size r made pointer offset inside
      rw [same] at made
      have order : r.order = p.current.1.order := (Region.fields_of_zeros made).2.2.1
      have bytes : written.1 = x.toBytes r.order := order ▸ List.nil_append _
      rw [bytes]
      exact read_word_toBytes x pointer offset inside

/-- A mismatch, a request that is granted, and a word across two cells. -/
theorem platform_installed_once_of_big :
    let shorts : Platform := ⟨.bits16, .little, .target⟩
    let p := (fresh.run [.install shorts, .install (.withOrder .big)]).2
    let x : Word .native := .ofLong 0x0102030405060708
    let pointer : Pointer .native := ⟨.ofBits 0x1003⟩
    p.Settled (.withOrder .big) ∧
      p.step (.install shorts) = (.notInstalled (.modelMismatch shorts .native), p) ∧
      p.step (.install .native) = (.notInstalled .alreadyInstalled, p) ∧
      (p.step .order).2 = p ∧
      ∃ r filled, (p.newRegion 0x1000 16).1 = .ok r ∧
        Memory.store r (pointer.locate .zero) (p.write x []).1 = .ok filled ∧
        (pointer.read .word .zero).answer filled = .ok x := by
  intro shorts p x pointer
  obtain ⟨refused, granted, asked, settled, -, words⟩ :=
    platform_installed_once [.install shorts, .install (.withOrder .big)]
  refine ⟨settled (.withOrder .big) rfl, refused shorts (by decide), ?_, ?_, ?_⟩
  · exact granted .native ⟨rfl, rfl⟩
  · exact (asked .order trivial).1
  · obtain ⟨filled, stored, found⟩ :=
      (words .native x [] []).2 0x1000 16 _ rfl pointer .zero (by decide)
    exact ⟨_, filled, rfl, stored, found⟩

end Session

end MachineWord
