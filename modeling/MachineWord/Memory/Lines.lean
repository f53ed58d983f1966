import Mathlib
import MachineWord.Memory.Entries
import MachineWord.Proofs.Address.Rendering

/-!
# Tables in texts

A dump is a table: a text of lines, each ended by a newline, with one row in each line. A table is
read by a reader for its rows (`readTable`), and rows whose lines are written one after another are
read back (`readTable_join`). There are two kinds of rows. One has an address and bytes, the other
an index and a word, and both have numerals whose end is known by a mark or by the number of their
digits.
-/

set_option autoImplicit false

namespace MachineWord

namespace Numeral

/-- Reads a numeral, which has at least one digit. -/
def read? (radix : Nat) (digits : List Char) : Option Nat :=
  if digits ≠ [] ∧ ∀ c ∈ digits, IsDigit radix c then some (positional radix digits) else none

theorem read?_toDigits {radix : Nat} (supported : 2 ≤ radix ∧ radix ≤ 16) (n : Nat) :
    read? radix (Nat.toDigits radix n) = some n := by
  rw [read?, if_pos ⟨Nat.toDigits_ne_nil, isDigit_of_mem_toDigits supported n⟩,
    positional_toDigits supported]

/-- The hexadecimal digits of a number, filled up with zeros. -/
def zeroFilled (digits n : Nat) : List Char := (Nat.toDigits 16 n).leftpad digits '0'

theorem toList_paddedHex (digits n : Nat) :
    (paddedHex '0' digits n).toList = zeroFilled digits n :=
  String.toList_ofList

theorem isDigit_of_mem_zeroFilled {digits n : Nat} : ∀ c ∈ zeroFilled digits n, IsDigit 16 c := by
  intro c listed
  rcases List.mem_append.1 listed with filling | digit
  · obtain rfl := List.eq_of_mem_replicate filling
    decide
  · exact isDigit_of_mem_toDigits (by decide) n c digit

theorem length_zeroFilled (digits n : Nat) :
    (zeroFilled digits n).length = max digits (Nat.toDigits 16 n).length :=
  List.length_leftpad

/-- Zeros in front do not change what is read. -/
theorem read?_zeroFilled (digits n : Nat) : read? 16 (zeroFilled digits n) = some n := by
  have nonempty : zeroFilled digits n ≠ [] :=
    List.append_ne_nil_of_right_ne_nil _ Nat.toDigits_ne_nil
  have number : positional 16 (zeroFilled digits n) = n :=
    (positional_zeros _ _ _).trans (positional_toDigits (by decide) n)
  rw [read?, if_pos ⟨nonempty, isDigit_of_mem_zeroFilled⟩, number]

end Numeral

/-! ## Marks -/

/-- What stands in front of the first mark of a text, and what stands behind it. -/
def cutAt (mark : Char) (text : List Char) : Option (List Char × List Char) :=
  match text.dropWhile (· ≠ mark) with
  | _ :: rest => some (text.takeWhile (· ≠ mark), rest)
  | [] => none

theorem cutAt_append {mark : Char} {front rest : List Char} (plain : mark ∉ front) :
    cutAt mark (front ++ mark :: rest) = some (front, rest) := by
  have passes : ∀ c ∈ front, decide (c ≠ mark) = true := by
    intro c listed
    exact decide_eq_true fun same => plain (same ▸ listed)
  rw [cutAt, List.dropWhile_append_of_pos passes, List.takeWhile_append_of_pos passes]
  simp

/-- The lines of a text, if each of them is ended by a newline. -/
def splitLines : List Char → Option (List (List Char))
  | [] => some []
  | c :: rest =>
    if c = '\n' then (splitLines rest).map ([] :: ·)
    else (splitLines rest).bind fun
      | line :: lines => some ((c :: line) :: lines)
      | [] => none

theorem splitLines_append {line : List Char} (plain : '\n' ∉ line) (rest : List Char) :
    splitLines (line ++ '\n' :: rest) = (splitLines rest).map (line :: ·) := by
  induction line with
  | nil => exact if_pos rfl
  | cons c line ih =>
      obtain ⟨first, others⟩ := not_or.1 (mt List.mem_cons.2 plain)
      rw [List.cons_append, splitLines, if_neg (Ne.symm first), ih others]
      cases splitLines rest <;> rfl

/-! ## Tables -/

/-- Reads a row from each line of a text. -/
def readTable {α : Type} (readRow : List Char → Option α) (text : String) : Option (List α) :=
  (splitLines text.toList).bind (·.mapM readRow)

/-- Rows are read back if each of them is read back from its line. -/
theorem readTable_join {α β : Type} {readRow : List Char → Option α} {line : β → String}
    {row : β → α} (items : List β)
    (shown : ∀ b ∈ items, ∃ chars, (line b).toList = chars ++ ['\n'] ∧ '\n' ∉ chars ∧
      readRow chars = some (row b)) :
    readTable readRow (String.join (items.map line)) = some (items.map row) := by
  induction items with
  | nil => rfl
  | cons b rest ih =>
      obtain ⟨first, others⟩ := List.forall_mem_cons.1 shown
      obtain ⟨chars, text, plain, read⟩ := first
      have later := ih others
      rw [readTable] at later
      rw [readTable, List.map_cons, String.join_cons, String.toList_append, text,
        List.append_assoc, List.singleton_append, splitLines_append plain]
      obtain ⟨lines, split, rows⟩ := Option.bind_eq_some_iff.1 later
      rw [split, Option.map_some, Option.bind_some, List.mapM_cons, read, rows]
      rfl

/-! ## Rows -/

/-- Reads an address of at least eight digits and bytes. -/
def readByteRow : List Char → Option (Nat × List UInt8)
  | '0' :: 'x' :: text => do
    let (digits, entries) ← cutAt ':' text
    guard (8 ≤ digits.length)
    return (← Numeral.read? 16 digits, ← readEntries entries)
  | _ => none

/-- Reads an index and a word of a number of digits. -/
def readWordRow (digits : Nat) : List Char → Option (Nat × Nat)
  | '[' :: text => do
    match ← cutAt ']' text with
    | (index, ' ' :: word) =>
      guard (word.length = digits)
      return (← Numeral.read? 10 index, ← Numeral.read? 16 word)
    | _ => none
  | _ => none

end MachineWord
