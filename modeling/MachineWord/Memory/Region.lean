import MachineWord.Memory.Basic

/-!
# Regions

A region is a row of bytes at a fixed base address, all zero at first. Its bytes are packed
into cells of eight bytes, least significant byte first, whatever the byte order of the
numbers kept in it. An access of some bytes touches the cells one after another: `chunks`
lists for each of them the part of the access that lies in it. An index beyond the cells, a
range beyond some bytes and a sum beyond 64 bits are faults.

A region starts at a multiple of eight and ends within the address space, so the byte at
distance `i` from the base is byte `i % 8` of cell `i / 8`. The last cell may have bytes that
belong to no address of the region.
-/

set_option autoImplicit false

namespace MachineWord

/-- A row of bytes at a fixed base address. -/
structure Region where
  base : BitVec 64
  /-- The number of bytes. -/
  size : Nat
  /-- The order of the bytes of a number. -/
  order : ByteOrder
  cells : Array (BitVec 64)
  base_aligned : base.toNat % 8 = 0
  end_lt : base.toNat + size < UInt64.size
  size_cells : cells.size = (size + 7) / 8

namespace Region

/-- The number of bytes that the cells of a region may take. -/
def capacity : Nat := UInt64.size / 2 - 1

/-- A region of zeros. The number of bytes is rounded up to whole cells in 64 bit
arithmetic. -/
def zeros (base : BitVec 64) (size : Nat) (order : ByteOrder) : Except Fault Region :=
  if base_aligned : base.toNat % 8 = 0 then
    if end_lt : base.toNat + size < UInt64.size then
      if UInt64.size ≤ size + 7 then .error .overflow
      else if capacity < (size + 7) / 8 * 8 then .error .regionCapacity
      else .ok {
        base, size, order, base_aligned, end_lt
        cells := Array.replicate ((size + 7) / 8) 0
        size_cells := Array.size_replicate }
    else .error (.regionExceeds size base.toNat)
  else .error (.regionBase base.toNat)

variable (r : Region)

/-- The first address after the region. -/
def stop : BitVec 64 := r.base + BitVec.ofNat 64 r.size

@[simp] theorem toNat_stop : r.stop.toNat = r.base.toNat + r.size := by
  have fits : r.base.toNat + r.size < 2 ^ 64 := r.end_lt
  simp only [stop, BitVec.toNat_add, BitVec.toNat_ofNat]
  omega

/-! ## The range of an access -/

/-- The first address after a number of bytes at an address, if there is one. -/
def spanStop? (address : BitVec 64) (count : Nat) : Option (BitVec 64) :=
  if address.toNat + count < UInt64.size then some (address + BitVec.ofNat 64 count) else none

/-- Whether the bytes at an address lie within the region. -/
def contains (address : BitVec 64) (count : Nat) : Bool :=
  r.base ≤ address && (spanStop? address count).any (· ≤ r.stop)

/-- The distance of bytes within the region from its base. -/
def distance (address : BitVec 64) (count : Nat) : Except Fault Nat :=
  if r.contains address count then .ok (address - r.base).toNat
  else .error (.outside count address.toNat r.base.toNat r.stop.toNat)

/-! ## Cells -/

/-- The part of an access that lies in one cell. -/
structure Chunk where
  /-- The index of the cell. -/
  cell : Nat
  /-- The position of the part within the cell. -/
  within : Nat
  /-- The position of the part within the access. -/
  start : Nat
  /-- The number of bytes of the part. -/
  count : Nat
  deriving DecidableEq, Repr

/-- The parts of an access from a position on, for an access of `count` bytes whose position
lies at a distance from the base. The positions after a part are plain sums. -/
def chunksFrom (distance start count : Nat) : Except Fault (List Chunk) :=
  if start < count then
    let within := distance % 8
    let taken := min (8 - within) (count - start)
    if distance + taken < UInt64.size ∧ start + taken < UInt64.size then do
      let rest ← chunksFrom (distance + taken) (start + taken) count
      return ⟨distance / 8, within, start, taken⟩ :: rest
    else .error .overflow
  else return []
termination_by count - start
decreasing_by omega

/-- The parts of an access of some bytes at a distance from the base. -/
def chunks (distance count : Nat) : Except Fault (List Chunk) := chunksFrom distance 0 count

/-- A number of bytes from a position on. -/
def slice (bytes : List UInt8) (start count : Nat) : Except Fault (List UInt8) :=
  if start + count ≤ bytes.length then .ok ((bytes.drop start).take count)
  else .error .sliceRange

/-- The bytes in which some have been replaced from a position on. -/
def splice (bytes : List UInt8) (start : Nat) (part : List UInt8) : Except Fault (List UInt8) :=
  if start + part.length ≤ bytes.length then
    .ok (bytes.take start ++ part ++ bytes.drop (start + part.length))
  else .error .sliceRange

/-- The bytes of a cell, least significant byte first. -/
def cellBytes (cell : BitVec 64) : List UInt8 := ByteOrder.littleBytes 8 cell.toNat

/-- The cell with the given bytes, least significant byte first. -/
def ofCellBytes (bytes : List UInt8) : BitVec 64 := BitVec.ofNat 64 (ByteOrder.ofLittleBytes bytes)

/-- The cell at an index. -/
def cellAt (i : Nat) : Except Fault (BitVec 64) :=
  match r.cells[i]? with
  | some cell => .ok cell
  | none => .error .sliceRange

/-- The region in which the cell at an index has been replaced. -/
def setCell (i : Nat) (cell : BitVec 64) : Region :=
  { r with
    cells := r.cells.setIfInBounds i cell
    size_cells := by rw [Array.size_setIfInBounds, r.size_cells] }

/-! ## Accesses -/

/-- The bytes of one cell that belong to a load of a number of bytes. -/
def loadChunk (count : Nat) (c : Chunk) : Except Fault (List UInt8) := do
  let cell ← r.cellAt c.cell
  if c.start + c.count ≤ count then slice (cellBytes cell) c.within c.count
  else .error .sliceRange

/-- The bytes at an address. -/
def load (address : BitVec 64) (count : Nat) : Except Fault (List UInt8) := do
  let distance ← r.distance address count
  return (← (← chunks distance count).mapM (r.loadChunk count)).flatten

/-- The region in which one cell has got its part of the bytes of a store. A part that is a
whole cell replaces the cell, and any other part replaces bytes of the cell. -/
def storeChunk (bytes : List UInt8) (r : Region) (c : Chunk) : Except Fault Region := do
  let cell ← r.cellAt c.cell
  let part ← slice bytes c.start c.count
  if part.length = 8 then return r.setCell c.cell (ofCellBytes part)
  else return r.setCell c.cell (ofCellBytes (← splice (cellBytes cell) c.within part))

/-- The region with bytes stored at an address. -/
def store (address : BitVec 64) (bytes : List UInt8) : Except Fault Region := do
  let distance ← r.distance address bytes.length
  (← chunks distance bytes.length).foldlM (storeChunk bytes) r

/-- Compares and replaces half a cell. -/
def swapHalf (address : BitVec 64) (expected new : BitVec 32) :
    Except Fault (BitVec 32 × Region) := do
  checkSwapAddress .w32 address
  let distance ← r.distance address 4
  let cell ← r.cellAt (distance / 8)
  let held ← slice (cellBytes cell) (distance % 8) 4
  let previous := BitVec.ofNat 32 (r.order.decode held)
  if previous = expected then
    let bytes ← splice (cellBytes cell) (distance % 8) (r.order.encode 4 new.toNat)
    return (previous, r.setCell (distance / 8) (ofCellBytes bytes))
  else return (previous, r)

/-- The pattern of a cell exchanged with the number that it holds in the region's order. -/
def convertCell (cell : BitVec 64) : BitVec 64 := BitVec.ofNat 64 (r.order.convert 8 cell.toNat)

/-- Compares and replaces a whole cell. The comparison is between cells. -/
def swapWhole (address : BitVec 64) (expected new : BitVec 64) :
    Except Fault (BitVec 64 × Region) := do
  checkSwapAddress .w64 address
  let distance ← r.distance address 8
  let held ← r.cellAt (distance / 8)
  if held = r.convertCell expected then
    return (r.convertCell held, r.setCell (distance / 8) (r.convertCell new))
  else return (r.convertCell held, r)

/-- Compares and replaces a word. -/
def swap : (size : WordSize) → (address : BitVec 64) → (expected new : BitVec size.bits) →
    Except Fault (BitVec size.bits × Region)
  | .w32 => r.swapHalf
  | .w64 => r.swapWhole

instance : Memory Region where
  order := order
  load := load
  store := store
  swap := swap

/-- All bytes of the region, in the order of their addresses. -/
def snapshot : Except Fault (List UInt8) := r.load r.base r.size

instance : ToString Region where
  toString r :=
    s!"Region \x7b base: {Numeral.hexLiteral r.base.toNat}, size: {r.size}, " ++
    s!"endianness: {r.order.name} \x7d"

end Region

end MachineWord
