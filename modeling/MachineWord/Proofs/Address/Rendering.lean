import Mathlib
import MachineWord.Proofs.Address.Numerals
import MachineWord.Value.Counts

/-!
# Numerals that are read back

An address is printed in lower case and without superfluous zeros (`Numeral.IsPlain`), and reading
what is printed leads back to the address, because the digits of a number stand for that number
(`positional_toDigits`). Zeros that fill up a numeral do not count, nor does the marker that is
taken off. In the other direction several texts are read as one address. Of these the printed one
is plain and its number did not wrap around, and there is no other such text: plain digits are
those of the number that they stand for (`toDigits_positional`).
-/

set_option autoImplicit false

namespace MachineWord

namespace Numeral

/-- Digits in lower case, without superfluous zeros in front. -/
structure IsPlain (digits : List Char) : Prop where
  nonempty : digits ≠ []
  lower : ∀ c ∈ digits, c.isUpper = false
  leading : digits = ['0'] ∨ digits.head? ≠ some '0'

/-! ## Single digits -/

section Digits

variable {d : Nat} (small : d < 16)

include small

theorem digitNumber_digitChar : digitNumber d.digitChar = d := by
  have all : ∀ d : Fin 16, digitNumber d.val.digitChar = d.val := by decide
  exact all ⟨d, small⟩

theorem isUpper_digitChar : d.digitChar.isUpper = false := by
  have all : ∀ d : Fin 16, d.val.digitChar.isUpper = false := by decide
  exact all ⟨d, small⟩

theorem digitChar_eq_zero_iff : d.digitChar = '0' ↔ d = 0 := by
  constructor
  · intro zero
    rw [← digitNumber_digitChar small, zero]
    rfl
  · rintro rfl
    rfl

end Digits

theorem digitChar_digitNumber {c : Char} (small : digitNumber c < 16) (lower : c.isUpper = false) :
    (digitNumber c).digitChar = c := by
  revert c
  apply forall_char
  · decide +kernel
  · intro c large small
    have none := digitNumber_of_toNat large
    omega

/-! ## Digits of a number -/

section Radix

variable {radix : Nat} (supported : 2 ≤ radix ∧ radix ≤ 16)

include supported

/-- Digits up to `f` are printed, and digits up to `z` are read. -/
theorem readable_of_printed : 2 ≤ radix ∧ radix ≤ 36 :=
  ⟨supported.1, supported.2.trans (by decide)⟩

/-- What is true of single digits, and stays true when one more digit is put behind those of a
number that is not zero, is true of the digits of every number. -/
theorem toDigits_induction {P : Nat → List Char → Prop} (one : ∀ d < radix, P d [d.digitChar])
    (more : ∀ n d, n ≠ 0 → d < radix → P n (Nat.toDigits radix n) →
      P (radix * n + d) (Nat.toDigits radix n ++ [d.digitChar])) (n : Nat) :
    P n (Nat.toDigits radix n) := by
  induction n using Nat.strongRecOn with
  | ind n ih =>
      by_cases small : n < radix
      · rw [Nat.toDigits_of_lt_base small]
        exact one n small
      · have le := Nat.not_lt.1 small
        have positive : 0 < n / radix := Nat.div_pos le (by omega)
        have last : n % radix < radix := Nat.mod_lt n (by omega)
        have fewer := ih (n / radix) (Nat.div_lt_self (by omega) supported.1)
        have digits := more (n / radix) (n % radix) positive.ne' last fewer
        rwa [Nat.div_add_mod, ← Nat.toDigits_of_base_le supported.1 le] at digits

theorem digitNumber_digitChar_of_lt {d : Nat} (small : d < radix) :
    digitNumber d.digitChar = d :=
  digitNumber_digitChar (small.trans_le supported.2)

/-- The digits of a number stand for it. -/
theorem positional_toDigits (n : Nat) : positional radix (Nat.toDigits radix n) = n := by
  apply toDigits_induction supported (P := fun n digits => positional radix digits = n)
  · intro d small
    rw [positional_singleton, digitNumber_digitChar_of_lt supported small]
  · intro n d _ small ih
    rw [positional_append, ih, positional_singleton, digitNumber_digitChar_of_lt supported small,
      List.length_singleton, pow_one, Nat.mul_comm]

theorem digitNumber_lt_of_mem_toDigits (n : Nat) :
    ∀ c ∈ Nat.toDigits radix n, digitNumber c < radix ∧ c.isUpper = false := by
  have last {d : Nat} (small : d < radix) :
      digitNumber d.digitChar < radix ∧ d.digitChar.isUpper = false := by
    rw [digitNumber_digitChar_of_lt supported small]
    exact ⟨small, isUpper_digitChar (small.trans_le supported.2)⟩
  apply toDigits_induction supported
    (P := fun _ digits => ∀ c ∈ digits, digitNumber c < radix ∧ c.isUpper = false)
  · intro d small
    exact List.forall_mem_singleton.2 (last small)
  · intro n d _ small ih
    exact List.forall_mem_append.2 ⟨ih, List.forall_mem_singleton.2 (last small)⟩

theorem isDigit_of_mem_toDigits (n : Nat) : ∀ c ∈ Nat.toDigits radix n, IsDigit radix c := by
  intro c listed
  exact (isDigit_iff (readable_of_printed supported).2 c).2
    (digitNumber_lt_of_mem_toDigits supported n c listed).1

theorem head?_toDigits (n : Nat) : n = 0 ∨ (Nat.toDigits radix n).head? ≠ some '0' := by
  apply toDigits_induction supported (P := fun n digits => n = 0 ∨ digits.head? ≠ some '0')
  · intro d small
    rw [List.head?_cons, ne_eq, Option.some_inj,
      digitChar_eq_zero_iff (small.trans_le supported.2)]
    exact em (d = 0)
  · intro n d nonzero _ ih
    rw [List.head?_append_of_ne_nil _ Nat.toDigits_ne_nil]
    exact .inr (ih.resolve_left nonzero)

theorem isPlain_toDigits (n : Nat) : IsPlain (Nat.toDigits radix n) where
  nonempty := Nat.toDigits_ne_nil
  lower c listed := (digitNumber_lt_of_mem_toDigits supported n c listed).2
  leading := by
    rcases head?_toDigits supported n with rfl | leading
    · exact .inl (Nat.toDigits_zero radix)
    · exact .inr leading

/-- Plain digits are those of the number that they stand for. -/
theorem toDigits_positional {digits : List Char} (plain : IsPlain digits)
    (all : ∀ c ∈ digits, IsDigit radix c) :
    Nat.toDigits radix (positional radix digits) = digits := by
  induction digits using List.reverseRecOn with
  | nil => exact absurd rfl plain.nonempty
  | append_singleton front c ih =>
      obtain ⟨inFront, last⟩ := List.forall_mem_append.1 all
      obtain ⟨lower, lower'⟩ := List.forall_mem_append.1 plain.lower
      have small : digitNumber c < radix := (last c (List.mem_singleton_self c)).2
      have char : (digitNumber c).digitChar = c :=
        digitChar_digitNumber (small.trans_le supported.2) (lower' c (List.mem_singleton_self c))
      rw [positional_append, positional_singleton, List.length_singleton, pow_one]
      by_cases single : front = []
      · rw [single, show positional radix [] = 0 from rfl, Nat.zero_mul, Nat.zero_add,
          Nat.toDigits_of_lt_base small, char, List.nil_append]
      · -- The digits in front do not start with a zero, since it would be superfluous.
        have leading : front.head? ≠ some '0' := by
          rcases plain.leading with zero | leading
          · exact absurd (List.append_eq_singleton_iff.1 zero) (by simp [single])
          · rwa [List.head?_append_of_ne_nil _ single] at leading
        have digits := ih ⟨single, lower, .inr leading⟩ inFront
        have nonzero : positional radix front ≠ 0 := by
          intro zero
          rw [zero, Nat.toDigits_zero] at digits
          rw [← digits] at leading
          exact leading rfl
        rw [Nat.mul_comm, ← Nat.toDigits_append_toDigits supported.1 (Nat.pos_of_ne_zero nonzero)
          small, digits, Nat.toDigits_of_lt_base small, char]

end Radix

end Numeral

namespace Address

open Numeral

variable {M : Model} {radix : Nat}

theorem numeral_eq (printed : radix ∈ [2, 8, 10, 16]) (x : Address M) :
    x.numeral radix = .ok (render radix x.bits.toNat) :=
  if_pos printed

section Supported

variable (supported : 2 ≤ radix ∧ radix ≤ 16)

include supported

/-- The digits of an address are read back, because its number is below the number of words. -/
theorem parse_render (x : Address M) : parse radix (render radix x.bits.toNat) = .ok x := by
  have readable := readable_of_printed supported
  have digits : (render radix x.bits.toNat).toList = Nat.toDigits radix x.bits.toNat :=
    String.toList_ofList
  obtain ⟨y, read⟩ := (parse_ok_iff (M := M) readable (render radix x.bits.toNat)).2 (by
    rw [digits]
    exact isDigit_of_mem_toDigits supported x.bits.toNat)
  have numbers := toNat_bits_parse readable read
  rw [digits, positional_toDigits supported, Nat.mod_eq_of_lt x.toNat_bits_lt] at numbers
  rw [read, Value.ext_bits (BitVec.eq_of_toNat_eq numbers)]

/-- Of the texts that are read as an address, one is the printed one. -/
theorem render_eq_iff {text : String} {x : Address M} (read : parse radix text = .ok x) :
    render radix x.bits.toNat = text ↔
      IsPlain text.toList ∧ positional radix text.toList < 2 ^ M.bits := by
  have readable := readable_of_printed supported
  constructor
  · rintro rfl
    rw [render, String.toList_ofList, positional_toDigits supported]
    exact ⟨isPlain_toDigits supported _, x.toNat_bits_lt⟩
  · rintro ⟨plain, small⟩
    have number := toNat_bits_parse readable read
    have all := (parse_ok_iff readable text).1 ⟨x, read⟩
    rw [Nat.mod_eq_of_lt small] at number
    rw [render, number, toDigits_positional supported plain all, String.ofList_toList]

end Supported

/-- The digits filled up are as many as those of a word, and end in the digits of the pattern. -/
theorem paddedHex_eq (fill : Char) (x : Address M) : x.paddedHex fill =
    String.ofList (List.replicate (M.bits / 4 - x.hex.length) fill) ++ x.hex := by
  rw [Value.hex, Numeral.hex, render, String.length_ofList, ← String.ofList_append]
  rfl

theorem length_hex_le (x : Address M) : x.hex.length ≤ M.bits / 4 := by
  rw [Value.hex, Numeral.hex, render, String.length_ofList]
  exact M.length_hex_le_iff.2 x.toNat_bits_lt

theorem length_paddedHex (fill : Char) (x : Address M) :
    (x.paddedHex fill).length = M.bits / 4 := by
  have digits := x.length_hex_le
  rw [paddedHex_eq, String.length_append, String.length_ofList, List.length_replicate]
  omega

/-- **What is printed is read back.** The numeral of an address in one of the radices that are
printed is read as the address, and of all texts that are read as the address it is the only one
that is plain and does not wrap around. The hexadecimal digits are a plain numeral with no more
digits than a word has. They are read back alone, without the marker, and filled up with zeros.
Whatever they are filled up with, they are at the end, and the digits are as many as those of a
word. -/
theorem addresses_are_read_back (M : Model) (x : Address M) :
    (∀ radix ∈ [2, 8, 10, 16],
      (∃ text, x.numeral radix = .ok text ∧ parse radix text = .ok x) ∧
      ∀ text, parse radix text = .ok x →
        (x.numeral radix = .ok text ↔
          IsPlain text.toList ∧ positional radix text.toList < 2 ^ M.bits)) ∧
    parse 16 x.hex = .ok x ∧ parse 16 (x.paddedHex '0') = .ok x ∧
    (∃ digits, toString x = "@" ++ digits ∧ parse 16 digits = .ok x) ∧
    IsPlain x.hex.toList ∧ x.hex.length ≤ M.bits / 4 ∧
    ∀ fill, (x.paddedHex fill).length = M.bits / 4 ∧
      ∃ missing, x.paddedHex fill = String.ofList (List.replicate missing fill) ++ x.hex := by
  have hexadecimal : 2 ≤ 16 ∧ 16 ≤ 16 := by decide
  have read : parse 16 x.hex = .ok x := parse_render hexadecimal x
  refine ⟨?_, read, ?_, ⟨x.hex, rfl, read⟩, ?_, x.length_hex_le, ?_⟩
  · intro radix printed
    have supported : 2 ≤ radix ∧ radix ≤ 16 := by
      have all : ∀ radix ∈ [2, 8, 10, 16], 2 ≤ radix ∧ radix ≤ 16 := by decide
      exact all radix printed
    rw [numeral_eq printed]
    refine ⟨⟨_, rfl, parse_render supported x⟩, fun text read => ?_⟩
    rw [Except.ok.injEq]
    exact render_eq_iff supported read
  · rw [paddedHex_eq]
    exact parse_zeros (by decide) read _
  · rw [Value.hex, Numeral.hex, render, String.toList_ofList]
    exact isPlain_toDigits hexadecimal _
  · intro fill
    exact ⟨x.length_paddedHex fill, _, paddedHex_eq fill x⟩

/-- Both texts are plain and read as one address, but the number of the first does not fit. -/
theorem addresses_are_read_back_of_fe :
    let x : Address .hosted32 := .ofBits 0xfe
    parse 16 "1000000fe" = .ok x ∧ x.numeral 16 ≠ .ok "1000000fe" ∧
      parse 16 "fe" = .ok x ∧ x.numeral 16 = .ok "fe" := by
  intro x
  obtain ⟨numerals, -⟩ := addresses_are_read_back .hosted32 x
  obtain ⟨-, printed⟩ := numerals 16 (by decide)
  have wrapped : parse 16 "1000000fe" = .ok x := by cbv
  have read : parse 16 "fe" = .ok x := by cbv
  have large : ¬ positional 16 "1000000fe".toList < 2 ^ Model.hosted32.bits := by decide
  have plain : IsPlain "fe".toList := by
    change IsPlain ['f', 'e']
    exact ⟨by simp, by simp, .inr (by simp)⟩
  refine ⟨wrapped, fun same => large ((printed _ wrapped).1 same).2, read, ?_⟩
  exact (printed _ read).2 ⟨plain, by decide⟩

end Address

end MachineWord
