import Mathlib
import MachineWord.Stream
import MachineWord.Value.Sequence

/-!
# Streams lose nothing

Writing and reading undo each other over whole streams in which every value has a byte order of
its own (`streams_are_lossless`). Values that are written one after another are read back in their
orders with nothing left, and a stream of as many bytes as some words have is read as values that
are written as that very stream. A value takes the bytes of one word, whatever its order, and the
two orders write it in reverse of each other. With fewer bytes left reading fails, and it ends a
program over streams without a byte written.
-/

set_option autoImplicit false

namespace MachineWord

namespace Streams

variable {M : Model} {v : View}

/-- A program ends with a value that cannot be read, and nothing is written any more. -/
theorem run_read_of_short {s : Streams} {order : ByteOrder} (short : s.input.length < M.bytes)
    (steps : List Step) : run M v s (.read order :: steps) = ([.unexpectedEnd], s.output) := by
  rw [run, Value.read?_eq_none_iff.2 short]

end Streams

namespace Value

variable {M : Model} {v : View}

/-- A value that is read takes the bytes of one word. -/
theorem drop_of_read? {order : ByteOrder} {stream rest : List UInt8} {x : Value M v}
    (found : read? order stream = some (x, rest)) :
    stream.length = M.bytes + rest.length ∧ stream.drop M.bytes = rest := by
  have length := x.length_toBytes order
  rw [eq_append_of_read? found]
  exact ⟨by rw [List.length_append, length], List.drop_left' length⟩

/-- Values that are written one after another, each in an order of its own, are read back from the
bytes written. Bytes that are as many as some words have are read as values that are written as
these bytes. Each value takes exactly the bytes of a word, in one order the reverse of the other,
and a value is not read from fewer bytes. -/
theorem streams_are_lossless (M : Model) (v : View) :
    (∀ (items : List (ByteOrder × Value M v)) (output rest : List UInt8),
      ∃ written, writeAll items output = output ++ written ∧
        written.length = items.length * M.bytes ∧
        readAll? (items.map Prod.fst) (written ++ rest) = some (items.map Prod.snd, rest)) ∧
    (∀ (orders : List ByteOrder) (bytes : List UInt8), bytes.length = orders.length * M.bytes →
      ∃ values : List (Value M v), readAll? orders bytes = some (values, []) ∧
        values.length = orders.length ∧ writeAll (orders.zip values) [] = bytes) ∧
    (∀ (x : Value M v) (order : ByteOrder) (output : List UInt8),
      ∃ written, x.write order output = output ++ written ∧ written.length = M.bytes) ∧
    (∀ (order : ByteOrder) (stream rest : List UInt8) (x : Value M v),
      read? order stream = some (x, rest) →
        stream.length = M.bytes + rest.length ∧ stream.drop M.bytes = rest) ∧
    (∀ x : Value M v, x.write .big [] = (x.write .little []).reverse) ∧
    ∀ (order : ByteOrder) (stream : List UInt8), stream.length < M.bytes →
      (read? order stream : Option (Value M v × List UInt8)) = none ∧
        ∀ (output : List UInt8) (steps : List Streams.Step),
          Streams.run M v ⟨stream, output⟩ (.read order :: steps) =
            ([.unexpectedEnd], output) := by
  refine ⟨?_, ?_, ?_, ?_, toBytes_big, ?_⟩
  · intro items output rest
    exact ⟨_, writeAll_eq_append items output, length_flatMap_toBytes items,
      readAll?_flatMap_toBytes items rest⟩
  · intro orders bytes length
    obtain ⟨values, found⟩ := exists_readAll? (v := v) orders length
    obtain ⟨count, bytes_eq⟩ := flatMap_toBytes_of_readAll? found
    refine ⟨values, found, count, ?_⟩
    rw [writeAll_eq_append, List.nil_append, bytes_eq, List.append_nil]
  · intro x order output
    exact ⟨x.toBytes order, rfl, x.length_toBytes order⟩
  · intro order stream rest x found
    exact drop_of_read? found
  · intro order stream short
    exact ⟨read?_eq_none_iff.2 short, fun output steps => Streams.run_read_of_short short steps⟩

/-- Two references of four bytes, one in each order, and three bytes that are too few for a
third one. -/
theorem streams_are_lossless_of_two_references :
    (∃ values : List (Reference .hosted32),
      readAll? [.big, .little] [0xff, 2, 3, 4, 4, 3, 2, 0xff] = some (values, []) ∧
        values.length = 2 ∧
        writeAll ([.big, .little].zip values) [] = [0xff, 2, 3, 4, 4, 3, 2, 0xff]) ∧
      [0xfe, 4, 3, 2].drop 4 = ([] : List UInt8) ∧
      (read? .big [1, 2, 3] : Option (Reference .hosted32 × List UInt8)) = none := by
  obtain ⟨-, back, -, taken, -, short⟩ := streams_are_lossless .hosted32 .reference
  exact ⟨back [.big, .little] _ rfl,
    (taken .little [0xfe, 4, 3, 2] [] (.ofBits 0x020304fe) (by decide +kernel)).2,
    (short .big [1, 2, 3] (by decide)).1⟩

end Value

end MachineWord
