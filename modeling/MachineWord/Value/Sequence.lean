import Mathlib
import MachineWord.Value.Lemmas

/-!
# Sequences of values in streams

Values are written to a stream one after another, each in a byte order of its own, and read back
in the same way. The bytes of a sequence are the bytes of its values, one value after the other
(`writeAll_eq_append`). Values that have been written are read back, whatever follows them
(`readAll?_flatMap_toBytes`), and values that have been read are written as the bytes that they
have been read from (`flatMap_toBytes_of_readAll?`).
-/

set_option autoImplicit false

namespace MachineWord

namespace Value

variable {M : Model} {v : View}

/-- A stream with values appended one after another, each in its order. -/
def writeAll (items : List (ByteOrder × Value M v)) (stream : List UInt8) : List UInt8 :=
  items.foldl (fun written item => item.2.write item.1 written) stream

/-- The values at the front of a stream, one for each order, and what follows them. -/
def readAll? : List ByteOrder → List UInt8 → Option (List (Value M v) × List UInt8)
  | [], stream => some ([], stream)
  | order :: orders, stream => do
    let (x, rest) ← read? order stream
    let (values, last) ← readAll? orders rest
    return (x :: values, last)

/-! ## Single values -/

/-- Bytes are those of the value that they make, if they are as many as a word has. -/
theorem toBytes_ofBytes (order : ByteOrder) {bytes : List UInt8} (length : bytes.length = M.bytes) :
    (ofBytes order bytes : Value M v).toBytes order = bytes := by
  have small := order.decode_lt bytes
  rw [length] at small
  rw [toBytes, ofBytes, toNat_bits_ofNat small, ← length, order.encode_decode]

/-- The bytes of a value in one order are its bytes in the other order, reversed. -/
theorem toBytes_big (x : Value M v) : x.toBytes .big = (x.toBytes .little).reverse :=
  ByteOrder.encode_big M.bytes x.bits.toNat

theorem read?_append (order : ByteOrder) {bytes : List UInt8} (length : bytes.length = M.bytes)
    (rest : List UInt8) :
    (read? order (bytes ++ rest) : Option (Value M v × List UInt8)) =
      some (ofBytes order bytes, rest) := by
  rw [← toBytes_ofBytes (v := v) order length, read?_toBytes_append, toBytes_ofBytes order length]

theorem read?_eq_none_iff {order : ByteOrder} {stream : List UInt8} :
    (read? order stream : Option (Value M v × List UInt8)) = none ↔ stream.length < M.bytes := by
  rw [read?]
  split <;> simp <;> omega

/-- A value has been read from its own bytes. -/
theorem eq_append_of_read? {order : ByteOrder} {stream rest : List UInt8} {x : Value M v}
    (found : read? order stream = some (x, rest)) : stream = x.toBytes order ++ rest := by
  rw [read?] at found
  split at found
  next enough =>
      cases found
      have length : (stream.take M.bytes).length = M.bytes := List.length_take_of_le enough
      rw [toBytes_ofBytes order length, List.take_append_drop]
  next => contradiction

/-! ## Sequences -/

/-- A sequence is written as the bytes of its values. -/
theorem writeAll_eq_append (items : List (ByteOrder × Value M v)) (stream : List UInt8) :
    writeAll items stream = stream ++ items.flatMap fun item => item.2.toBytes item.1 := by
  rw [writeAll, List.flatMap_def]
  exact List.foldl_append_eq_append

theorem length_flatMap_toBytes (items : List (ByteOrder × Value M v)) :
    (items.flatMap fun item => item.2.toBytes item.1).length = items.length * M.bytes := by
  induction items with
  | nil => simp
  | cons item items ih =>
      rw [List.flatMap_cons, List.length_append, length_toBytes, ih, List.length_cons, Nat.succ_mul,
        Nat.add_comm]

/-- The bytes of one value of a sequence. -/
theorem take_drop_flatMap_toBytes (items : List (ByteOrder × Value M v)) {k : Nat}
    (listed : k < items.length) :
    ((items.flatMap fun item => item.2.toBytes item.1).drop (k * M.bytes)).take M.bytes =
      items[k].2.toBytes items[k].1 := by
  have before : ((items.take k).flatMap fun item => item.2.toBytes item.1).length =
      k * M.bytes := by
    rw [length_flatMap_toBytes, List.length_take_of_le (Nat.le_of_lt listed)]
  conv_lhs => rw [← List.take_append_drop k items, List.drop_eq_getElem_cons listed]
  rw [List.flatMap_append, List.flatMap_cons, List.drop_left' before,
    List.take_left' (length_toBytes _ _)]

theorem readAll?_cons {order : ByteOrder} {orders : List ByteOrder} {stream rest last : List UInt8}
    {x : Value M v} {values : List (Value M v)} (first : read? order stream = some (x, rest))
    (later : readAll? orders rest = some (values, last)) :
    readAll? (order :: orders) stream = some (x :: values, last) := by
  rw [readAll?, first]
  change (readAll? orders rest >>= _) = _
  rw [later]
  rfl

/-- A sequence is read back from its bytes, whatever follows them. -/
theorem readAll?_flatMap_toBytes (items : List (ByteOrder × Value M v)) (rest : List UInt8) :
    readAll? (items.map Prod.fst) ((items.flatMap fun item => item.2.toBytes item.1) ++ rest) =
      some (items.map Prod.snd, rest) := by
  induction items with
  | nil => rfl
  | cons item items ih =>
      rw [List.flatMap_cons, List.append_assoc]
      exact readAll?_cons (read?_toBytes_append item.1 item.2 _) ih

/-- As many bytes as some words have are read to the end. -/
theorem exists_readAll? (orders : List ByteOrder) {bytes : List UInt8}
    (length : bytes.length = orders.length * M.bytes) :
    ∃ values : List (Value M v), readAll? orders bytes = some (values, []) := by
  induction orders generalizing bytes with
  | nil =>
      rw [List.length_nil, Nat.zero_mul, List.length_eq_zero_iff] at length
      exact ⟨[], by rw [length]; rfl⟩
  | cons order orders ih =>
      rw [List.length_cons, Nat.succ_mul] at length
      have front : (bytes.take M.bytes).length = M.bytes := by
        rw [List.length_take]
        omega
      have first := read?_append (v := v) order front (bytes.drop M.bytes)
      rw [List.take_append_drop] at first
      obtain ⟨values, later⟩ := @ih (bytes.drop M.bytes) (by rw [List.length_drop]; omega)
      exact ⟨_, readAll?_cons first later⟩

/-- A sequence has been read from the bytes of its values. -/
theorem flatMap_toBytes_of_readAll? {orders : List ByteOrder} {stream rest : List UInt8}
    {values : List (Value M v)} (found : readAll? orders stream = some (values, rest)) :
    values.length = orders.length ∧
      stream = ((orders.zip values).flatMap fun item => item.2.toBytes item.1) ++ rest := by
  induction orders generalizing stream values with
  | nil =>
      cases found
      exact ⟨rfl, rfl⟩
  | cons order orders ih =>
      rw [readAll?, Option.bind_eq_bind, Option.bind_eq_some_iff] at found
      obtain ⟨⟨x, behind⟩, first, found⟩ := found
      rw [Option.bind_eq_bind, Option.bind_eq_some_iff] at found
      obtain ⟨⟨later, last⟩, others, made⟩ := found
      cases made
      obtain ⟨length, behind_eq⟩ := ih others
      refine ⟨congrArg (· + 1) length, ?_⟩
      rw [List.zip_cons_cons, List.flatMap_cons, List.append_assoc, ← behind_eq]
      exact eq_append_of_read? first

end Value

end MachineWord
