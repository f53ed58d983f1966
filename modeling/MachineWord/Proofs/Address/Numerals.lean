import Mathlib
import MachineWord.Address.Parse
import MachineWord.Pointer.Lemmas

/-!
# The numerals of addresses

A digit is an ASCII digit or letter, and its value is the place of its lower case in the
alphabet `0` to `9`, `a` to `z`. A text is a numeral of a radix if all of its characters are
digits below the radix, and then it stands for a number of any size. Reading an address accepts
exactly the numerals, and takes their number modulo the number of words (`parse_numerals`). Any
other text has a first character that is not a digit, which is reported with its place.

The digits in front of a character change what is read only through the address that they have
led to (`parseDigits_append`). Each of them multiplies that address by the radix, so it is the
number of these digits at every point of the text, up to a multiple of the number of words
(`toNat_bits_appendDigits`).
-/

set_option autoImplicit false

namespace MachineWord

namespace Numeral

/-- The digits of all radices, in the order of their values. -/
def alphabet : List Char :=
  ['0', '1', '2', '3', '4', '5', '6', '7', '8', '9', 'a', 'b', 'c', 'd', 'e', 'f', 'g', 'h', 'i',
    'j', 'k', 'l', 'm', 'n', 'o', 'p', 'q', 'r', 's', 't', 'u', 'v', 'w', 'x', 'y', 'z']

/-- The value of a character as a digit. It is 36 for characters that are no digits. -/
def digitNumber (c : Char) : Nat := alphabet.idxOf c.toLower

/-- An ASCII digit or letter with a value below the radix. -/
def IsDigit (radix : Nat) (c : Char) : Prop := c.isAlphanum = true ∧ digitNumber c < radix

instance (radix : Nat) (c : Char) : Decidable (IsDigit radix c) :=
  inferInstanceAs (Decidable (_ ∧ _))

/-- The number that digits stand for, the one in front with the greatest weight. -/
def positional (radix : Nat) (digits : List Char) : Nat :=
  Nat.ofDigits radix (digits.map digitNumber).reverse

/-! ## Digits -/

/-- What holds of the 128 ASCII characters and of all others holds of every character. -/
theorem forall_char {P : Char → Prop} (ascii : ∀ n : Fin 128, P (Char.ofNat n))
    (other : ∀ c : Char, 128 ≤ c.toNat → P c) (c : Char) : P c := by
  by_cases small : c.toNat < 128
  · have same : Char.ofNat c.toNat = c := Char.ofNat_toNat c
    rw [← same]
    exact ascii ⟨c.toNat, small⟩
  · exact other c (by omega)

/-- Characters beyond ASCII lie above the digits and letters of ASCII. -/
theorem not_le_of_toNat {c : Char} (large : 128 ≤ c.toNat) :
    ¬ c ≤ '9' ∧ ¬ c ≤ 'Z' ∧ ¬ c ≤ 'z' := by
  have above {d : Char} (ascii : d.toNat < 128) : ¬ c ≤ d := by
    rw [Char.le_def, UInt32.le_iff_toNat_le]
    change ¬ c.toNat ≤ d.toNat
    omega
  exact ⟨above (by decide), above (by decide), above (by decide)⟩

theorem isAlphanum_of_toNat {c : Char} (large : 128 ≤ c.toNat) : c.isAlphanum = false := by
  obtain ⟨digits, upper, lower⟩ := not_le_of_toNat large
  rw [Char.le_def] at digits upper lower
  simp_all [Char.isAlphanum, Char.isAlpha, Char.isUpper, Char.isLower, Char.isDigit]

theorem alphanumeric?_of_toNat {c : Char} (large : 128 ≤ c.toNat) : alphanumeric? c = none := by
  obtain ⟨digits, upper, lower⟩ := not_le_of_toNat large
  simp [alphanumeric?, digits, upper, lower]

theorem digitNumber_of_toNat {c : Char} (large : 128 ≤ c.toNat) : digitNumber c = 36 := by
  obtain ⟨-, upper, -⟩ := not_le_of_toNat large
  rw [Char.le_def] at upper
  have kept : c.toLower = c := by simp_all [Char.toLower]
  have ascii : ∀ d ∈ alphabet, d.toNat < 128 := by simp [alphabet]
  rw [digitNumber, kept]
  refine List.idxOf_eq_length fun listed => ?_
  have small := ascii c listed
  omega

/-- The value of a digit is found by its place in the alphabet. -/
theorem alphanumeric?_eq (c : Char) :
    alphanumeric? c = if c.isAlphanum = true then some (digitNumber c) else none := by
  revert c
  apply forall_char
  · decide +kernel
  · intro c large
    rw [alphanumeric?_of_toNat large, isAlphanum_of_toNat large]
    rfl

/-- Characters that are no digits have a value that no digit has. -/
theorem isAlphanum_of_digitNumber {c : Char} (small : digitNumber c < 36) :
    c.isAlphanum = true := by
  revert c
  apply forall_char
  · decide +kernel
  · intro c large small
    have none := digitNumber_of_toNat large
    omega

theorem digitValue?_eq (radix : Nat) (c : Char) :
    digitValue? radix c = if IsDigit radix c then some (digitNumber c) else none := by
  rw [digitValue?, alphanumeric?_eq]
  by_cases alphanum : c.isAlphanum = true <;> simp [IsDigit, alphanum, Option.filter_some]

theorem isDigit_iff {radix : Nat} (supported : radix ≤ 36) (c : Char) :
    IsDigit radix c ↔ digitNumber c < radix :=
  ⟨And.right, fun small => ⟨isAlphanum_of_digitNumber (by omega), small⟩⟩

theorem utf8Size_of_isDigit {radix : Nat} {c : Char} (digit : IsDigit radix c) :
    c.utf8Size = 1 := by
  obtain ⟨alphanum, -⟩ := digit
  revert c
  apply forall_char
  · decide +kernel
  · intro c large alphanum
    rw [isAlphanum_of_toNat large] at alphanum
    contradiction

/-- A text either has digits only or has a first character that is no digit. -/
theorem digits_or_first (radix : Nat) (text : List Char) :
    (∀ c ∈ text, IsDigit radix c) ∨
      ∃ front c rest, text = front ++ c :: rest ∧ (∀ d ∈ front, IsDigit radix d) ∧
        ¬ IsDigit radix c := by
  cases found : text.find? fun c => !decide (IsDigit radix c) with
  | none =>
      left
      simpa using List.find?_eq_none.1 found
  | some c =>
      right
      obtain ⟨bad, front, rest, parts, digits⟩ := List.find?_eq_some_iff_append.1 found
      exact ⟨front, c, rest, parts, by simpa using digits, by simpa using bad⟩

/-! ## Numerals -/

theorem positional_append (radix : Nat) (front back : List Char) :
    positional radix (front ++ back) =
      positional radix front * radix ^ back.length + positional radix back := by
  simp [positional, Nat.ofDigits_append]
  ring

theorem positional_singleton (radix : Nat) (c : Char) : positional radix [c] = digitNumber c := by
  simp [positional]

/-- Leading zeros do not count. -/
theorem positional_zeros (radix n : Nat) (digits : List Char) :
    positional radix (List.replicate n '0' ++ digits) = positional radix digits := by
  have zero : digitNumber '0' = 0 := rfl
  simp [positional, zero, Nat.ofDigits_append_replicate_zero]

/-- The case of letters does not count. -/
theorem map_digitNumber_of_toLower {digits other : List Char}
    (same : other.map Char.toLower = digits.map Char.toLower) :
    other.map digitNumber = digits.map digitNumber := by
  have places (text : List Char) :
      text.map digitNumber = (text.map Char.toLower).map alphabet.idxOf := by
    rw [List.map_map]
    rfl
  rw [places, places, same]

end Numeral

namespace Address

open Numeral

variable {M : Model} {radix : Nat}

/-- The address that digits lead to. -/
def appendDigits (radix : Nat) (x : Address M) (digits : List Char) : Address M :=
  digits.foldl (fun y c => y.appendDigit radix (digitNumber c)) x

theorem toNat_bits_appendDigit {digit : Nat} (small : radix < 2 ^ 32) (small' : digit < 2 ^ 32)
    (x : Address M) :
    (x.appendDigit radix digit).bits.toNat = (x.bits.toNat * radix + digit) % 2 ^ M.bits := by
  have pattern {n : Nat} (fits : n < 2 ^ 32) :
      ((Operand.unsignedInt (UInt32.ofNat n)).pattern M).toNat = n := by
    simp only [Operand.pattern, BitVec.toNat_setWidth, UInt32.toNat_toBitVec,
      UInt32.toNat_ofNat']
    omega
  rw [appendDigit, Value.toNat_bits_add, Value.toNat_bits_mul, pattern small, pattern small',
    Nat.mod_add_mod]

/-- **The running number.** After any digits the address is their number, behind what was there
before, modulo the number of words. -/
theorem toNat_bits_appendDigits (small : radix < 2 ^ 32) (digits : List Char)
    (all : ∀ c ∈ digits, IsDigit radix c) (x : Address M) :
    (x.appendDigits radix digits).bits.toNat =
      (x.bits.toNat * radix ^ digits.length + positional radix digits) % 2 ^ M.bits := by
  induction digits generalizing x with
  | nil =>
      have bound := Value.toNat_bits_lt x
      simp [appendDigits, positional, Nat.mod_eq_of_lt bound]
  | cons c rest ih =>
      obtain ⟨first, others⟩ := List.forall_mem_cons.1 all
      have fits : digitNumber c < 2 ^ 32 := first.2.trans small
      have split := positional_append radix [c] rest
      rw [List.singleton_append, positional_singleton] at split
      change (appendDigits radix (x.appendDigit radix (digitNumber c)) rest).bits.toNat = _
      rw [ih others, toNat_bits_appendDigit small fits, split, List.length_cons, pow_succ']
      calc ((x.bits.toNat * radix + digitNumber c) % 2 ^ M.bits * radix ^ rest.length +
            positional radix rest) % 2 ^ M.bits
          = ((x.bits.toNat * radix + digitNumber c) * radix ^ rest.length +
            positional radix rest) % 2 ^ M.bits := by
              rw [Nat.add_mod, Nat.mod_mul_mod, ← Nat.add_mod]
        _ = (x.bits.toNat * (radix * radix ^ rest.length) +
            (digitNumber c * radix ^ rest.length + positional radix rest)) % 2 ^ M.bits := by
              congr 1
              ring

/-- Reading goes on behind digits with the address that they lead to. -/
theorem parseDigits_append (digits rest : List Char) (all : ∀ c ∈ digits, IsDigit radix c)
    (position : Nat) (x : Address M) :
    parseDigits radix (digits ++ rest) position x =
      parseDigits radix rest (position + digits.length) (x.appendDigits radix digits) := by
  induction digits generalizing position x with
  | nil => rfl
  | cons c others ih =>
      obtain ⟨first, all⟩ := List.forall_mem_cons.1 all
      rw [List.cons_append, parseDigits, digitValue?_eq, if_pos first]
      change parseDigits radix (others ++ rest) (position + c.utf8Size) _ = _
      rw [ih all, utf8Size_of_isDigit first, List.length_cons, Nat.add_assoc,
        Nat.add_comm 1 others.length]
      rfl

theorem utf8ByteSize_digits {digits : List Char} (all : ∀ c ∈ digits, IsDigit radix c) :
    (String.ofList digits).utf8ByteSize = digits.length := by
  rw [String.utf8ByteSize_ofList]
  induction digits with
  | nil => rfl
  | cons c others ih =>
      obtain ⟨first, all⟩ := List.forall_mem_cons.1 all
      rw [String.utf8Len, ih all, utf8Size_of_isDigit first, List.length_cons]

section Supported

variable (supported : 2 ≤ radix ∧ radix ≤ 36)

include supported

/-- A numeral is read as its number. -/
theorem parse_digits {text : String} (all : ∀ c ∈ text.toList, IsDigit radix c) :
    parse radix text = .ok (appendDigits radix (.zero : Address M) text.toList) := by
  have read := parseDigits_append (M := M) text.toList [] all 0 .zero
  rw [List.append_nil] at read
  rw [parse, if_pos supported, read]
  rfl

/-- The first character that is not a digit is refused. -/
theorem parse_first {text : String} {front rest : List Char} {c : Char}
    (parts : text.toList = front ++ c :: rest) (digits : ∀ d ∈ front, IsDigit radix d)
    (bad : ¬ IsDigit radix c) :
    parse radix text = (.error (.invalidDigit c front.length) : Except _ (Address M)) := by
  rw [parse, if_pos supported, parts, parseDigits_append front _ digits, parseDigits,
    digitValue?_eq, if_neg bad, Nat.zero_add]

theorem parse_ok_iff (text : String) :
    (∃ x : Address M, parse radix text = .ok x) ↔ ∀ c ∈ text.toList, IsDigit radix c := by
  constructor
  · rintro ⟨x, read⟩
    rcases digits_or_first radix text.toList with all | ⟨front, c, rest, parts, digits, bad⟩
    · exact all
    · rw [parse_first supported parts digits bad] at read
      contradiction
  · intro all
    exact ⟨_, parse_digits supported all⟩

theorem toNat_bits_parse {text : String} {x : Address M} (read : parse radix text = .ok x) :
    x.bits.toNat = positional radix text.toList % 2 ^ M.bits := by
  have all := (parse_ok_iff supported text).1 ⟨x, read⟩
  rw [parse_digits supported all] at read
  cases read
  rw [toNat_bits_appendDigits (by omega) text.toList all, Value.toNat_bits_zero, Nat.zero_mul,
    Nat.zero_add]

theorem parse_error_iff (text : String) (c : Char) (position : Nat) :
    parse radix text = (.error (.invalidDigit c position) : Except _ (Address M)) ↔
      ∃ front rest, text.toList = front ++ c :: rest ∧ (∀ d ∈ front, IsDigit radix d) ∧
        ¬ IsDigit radix c ∧ position = (String.ofList front).utf8ByteSize ∧
        position = front.length := by
  constructor
  · intro refused
    rcases digits_or_first radix text.toList with all | ⟨front, d, rest, parts, digits, bad⟩
    · rw [parse_digits supported all] at refused
      contradiction
    · rw [parse_first supported parts digits bad] at refused
      cases refused
      exact ⟨front, rest, parts, digits, bad, (utf8ByteSize_digits digits).symm, rfl⟩
  · rintro ⟨front, rest, parts, digits, bad, -, rfl⟩
    exact parse_first supported parts digits bad

/-- Texts with digits of the same values are read as the same address. -/
theorem parse_congr {text other : String} {x : Address M} (read : parse radix text = .ok x)
    (all : ∀ c ∈ other.toList, IsDigit radix c)
    (same : positional radix other.toList = positional radix text.toList) :
    parse radix other = .ok x := by
  obtain ⟨y, read'⟩ := (parse_ok_iff (M := M) supported other).2 all
  have numbers : y.bits.toNat = x.bits.toNat := by
    rw [toNat_bits_parse supported read', toNat_bits_parse supported read, same]
  rw [read', Value.ext_bits (BitVec.eq_of_toNat_eq numbers)]

theorem parse_zeros {text : String} {x : Address M} (read : parse radix text = .ok x) (n : Nat) :
    parse radix (String.ofList (List.replicate n '0') ++ text) = .ok x := by
  have all := (parse_ok_iff supported text).1 ⟨x, read⟩
  have zero : IsDigit radix '0' := (isDigit_iff supported.2 '0').2 (by
    change 0 < radix
    omega)
  refine parse_congr supported read ?_ ?_
  · intro c listed
    rw [String.toList_append, String.toList_ofList, List.mem_append] at listed
    rcases listed with inZeros | inText
    · rw [List.eq_of_mem_replicate inZeros]
      exact zero
    · exact all c inText
  · rw [String.toList_append, String.toList_ofList, positional_zeros]

theorem parse_toLower {text other : String} {x : Address M} (read : parse radix text = .ok x)
    (same : other.toList.map Char.toLower = text.toList.map Char.toLower) :
    parse radix other = .ok x := by
  have all := (parse_ok_iff supported text).1 ⟨x, read⟩
  have values := map_digitNumber_of_toLower same
  refine parse_congr supported read ?_ ?_
  · intro c listed
    have value : digitNumber c ∈ text.toList.map digitNumber :=
      values ▸ List.mem_map_of_mem listed
    obtain ⟨d, listed', equal⟩ := List.mem_map.1 value
    rw [isDigit_iff supported.2, ← equal]
    exact (all d listed').2
  · rw [positional, positional, values]

end Supported

/-- **Addresses are read from exactly the numerals.** In a radix from 2 to 36 a text is read if
and only if its characters are digits of the radix, and as their number modulo the number of
words. Superfluous zeros in front and the case of letters do not matter. Any other text is
refused for its first character that is not a digit, whose place is the number of bytes and of
digits in front of it. Other radices are refused whatever the text. -/
theorem parse_numerals (M : Model) (radix : Nat) (text : String) :
    (2 ≤ radix ∧ radix ≤ 36 →
      ((∃ x : Address M, parse radix text = .ok x) ↔ ∀ c ∈ text.toList, IsDigit radix c) ∧
      (∀ x : Address M, parse radix text = .ok x →
        x.bits.toNat = positional radix text.toList % 2 ^ M.bits ∧
        (∀ n, parse radix (String.ofList (List.replicate n '0') ++ text) = .ok x) ∧
        (∀ other : String, other.toList.map Char.toLower = text.toList.map Char.toLower →
          parse radix other = .ok x)) ∧
      (∀ c position,
        parse radix text = (.error (.invalidDigit c position) : Except _ (Address M)) ↔
          ∃ front rest, text.toList = front ++ c :: rest ∧ (∀ d ∈ front, IsDigit radix d) ∧
            ¬ IsDigit radix c ∧ position = (String.ofList front).utf8ByteSize ∧
            position = front.length) ∧
      (∀ fault, parse radix text ≠ (.error (.refused fault) : Except _ (Address M))) ∧
      parse radix "" = .ok (.zero : Address M)) ∧
    (¬ (2 ≤ radix ∧ radix ≤ 36) →
      parse radix text =
        (.error (.refused (.radix .address radix)) : Except _ (Address M))) := by
  constructor
  · intro supported
    refine ⟨parse_ok_iff supported text, ?_, parse_error_iff supported text, ?_, ?_⟩
    · intro x read
      exact ⟨toNat_bits_parse supported read, parse_zeros supported read,
        fun other same => parse_toLower supported read same⟩
    · intro fault refused
      rcases digits_or_first radix text.toList with all | ⟨front, c, rest, parts, digits, bad⟩
      · rw [parse_digits supported all] at refused
        contradiction
      · rw [parse_first supported parts digits bad] at refused
        cases refused
    · exact parse_digits supported (show ∀ c ∈ "".toList, IsDigit radix c by simp)
  · intro unsupported
    rw [parse, if_neg unsupported]

/-- The leading digit does not fit into a word, and letters are read in either case. -/
example : parse 16 "1fFfFfFfE" = (.ok (.ofBits 0xfffffffe) : Except _ (Address .hosted32)) := by
  cbv

example : parse 10 "12€4" = (.error (.invalidDigit '€' 2) : Except _ (Address .hosted32)) := by
  rfl

end Address

end MachineWord
