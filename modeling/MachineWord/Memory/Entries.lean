import Mathlib
import MachineWord.Memory.Dump

/-!
# Entries of dumps

Each byte has an entry in a dump, a blank and two hexadecimal digits in lower case
(`toList_dumpBytes`). The bytes are read back from their entries (`readEntries_flatMap_byteEntry`),
also behind a label that ends with a colon (`readDump_of_toList`).
-/

set_option autoImplicit false

namespace MachineWord

namespace Numeral

theorem digitValue?_digitChar {d : Nat} (small : d < 16) : digitValue? 16 d.digitChar = some d := by
  have all : ∀ d : Fin 16, digitValue? 16 d.val.digitChar = some d.val := by decide
  exact all ⟨d, small⟩

/-- A byte has two digits, also if the first one is zero. -/
theorem toList_hexByte (b : UInt8) :
    (hexByte b).toList = [(b.toNat / 16).digitChar, (b.toNat % 16).digitChar] := by
  have small := b.toNat_lt
  rw [hexByte, paddedHex, String.toList_ofList]
  by_cases single : b.toNat < 16
  · rw [Nat.toDigits_of_lt_base single, Nat.div_eq_of_lt single, Nat.mod_eq_of_lt single]
    rfl
  · rw [Nat.toDigits_of_base_le (by decide) (Nat.not_lt.1 single),
      Nat.toDigits_of_lt_base (by omega)]
    rfl

end Numeral

/-- The entry of a byte in a dump. -/
def byteEntry (b : UInt8) : List Char :=
  [' ', (b.toNat / 16).digitChar, (b.toNat % 16).digitChar]

theorem toList_dumpBytes (bytes : List UInt8) :
    (dumpBytes bytes).toList = bytes.flatMap byteEntry := by
  rw [dumpBytes, String.toList_join, List.flatMap_map]
  congr 1
  funext b
  rw [String.toList_append, Numeral.toList_hexByte]
  rfl

/-- Reads the bytes of entries. -/
def readEntries : List Char → Option (List UInt8)
  | [] => some []
  | ' ' :: high :: low :: rest => do
    let high ← Numeral.digitValue? 16 high
    let low ← Numeral.digitValue? 16 low
    return UInt8.ofNat (16 * high + low) :: (← readEntries rest)
  | _ => none

/-- Bytes are read back from their entries. -/
theorem readEntries_flatMap_byteEntry (bytes : List UInt8) :
    readEntries (bytes.flatMap byteEntry) = some bytes := by
  induction bytes with
  | nil => rfl
  | cons b rest ih =>
      have small := b.toNat_lt
      have byte : UInt8.ofNat (16 * (b.toNat / 16) + b.toNat % 16) = b := by
        rw [Nat.div_add_mod, UInt8.ofNat_toNat]
      rw [List.flatMap_cons, byteEntry, List.cons_append, List.cons_append, List.cons_append,
        List.nil_append, readEntries, Numeral.digitValue?_digitChar (by omega),
        Numeral.digitValue?_digitChar (by omega), ih]
      exact congrArg (fun first => some (first :: rest)) byte

/-- Reads the bytes of a text, from the entry behind the first colon on. -/
def readDump (text : String) : Option (List UInt8) :=
  readEntries ((text.toList.dropWhile (· ≠ ':')).drop 1)

theorem readDump_of_toList {text : String} {label : List Char} {bytes : List UInt8}
    (plain : ∀ c ∈ label, c ≠ ':')
    (entries : text.toList = label ++ ':' :: bytes.flatMap byteEntry) :
    readDump text = some bytes := by
  have skipped : (text.toList.dropWhile (· ≠ ':')) = ':' :: bytes.flatMap byteEntry := by
    rw [entries, List.dropWhile_append_of_pos (by simpa using plain)]
    simp
  rw [readDump, skipped, List.drop_one, List.tail_cons, readEntries_flatMap_byteEntry]

end MachineWord
