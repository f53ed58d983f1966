import MachineWord.Cursor.Host
import MachineWord.Cursor.Region
import MachineWord.Hybrid.Affine
import MachineWord.Hybrid.Store
import MachineWord.Memory.Region.Bytes
import MachineWord.Platform.Session
import MachineWord.Scalar.Lemmas
import MachineWord.Value.Ints
import MachineWord.ByteOrder.Slices
import MachineWord.Stream
import MachineWord.Memory.Region.Swap
import MachineWord.Proofs.Memory.Flat
import MachineWord.Proofs.Memory.Refinement
import MachineWord.Memory.Region.Patch
import MachineWord.Proofs.Memory.Typed
import MachineWord.Proofs.Memory.Swaps
import MachineWord.Proofs.Memory.Steps
import MachineWord.Proofs.Address.Numerals
import MachineWord.Proofs.Mode.Registers
import MachineWord.Proofs.Mode.Pointers
import MachineWord.Proofs.Mode.Cursors
import MachineWord.Pointer.Lemmas
import MachineWord.Proofs.Hybrid.Ledger
import MachineWord.Proofs.Hybrid.Tails
import MachineWord.Proofs.Hybrid.Accesses
import MachineWord.Proofs.Hybrid.Elements
import MachineWord.Proofs.Hybrid.Independence
import MachineWord.Proofs.Memory.Orders
import MachineWord.Proofs.Hybrid.Layout
import MachineWord.Proofs.Hybrid.Views
import MachineWord.Proofs.Memory.Slices
import MachineWord.Value.LowBits
import MachineWord.Arithmetic.Shared
import MachineWord.Value.Number
import MachineWord.Proofs.Pointer.Ways
import MachineWord.Proofs.Platform.Sessions
import MachineWord.Memory.Related
import MachineWord.Proofs.Host.Agreement
import MachineWord.Proofs.Host.Pointers
import MachineWord.Proofs.Host.Cursors
import MachineWord.Proofs.Arithmetic.Modular
import MachineWord.Proofs.Arithmetic.Operands
import MachineWord.Proofs.Arithmetic.Views
import MachineWord.Register.StraightLine
import MachineWord.Proofs.Arithmetic.Narrowing
import MachineWord.Value.Sequence
import MachineWord.Proofs.Stream.Lossless
import MachineWord.Proofs.Stream.Memory
import MachineWord.Value.Counts
import MachineWord.Proofs.Value.Cells
import MachineWord.Proofs.Hybrid.Refusals
import MachineWord.Memory.Region.Bits
import MachineWord.Proofs.BitMap.Places
import MachineWord.Proofs.BitMap.Unions
import MachineWord.Memory.Fence
import MachineWord.Proofs.BitMap.Reach
import MachineWord.Proofs.BitMap.Windows
import MachineWord.Proofs.Pointer.Copies
import MachineWord.Arithmetic.Divisors
import MachineWord.Arithmetic.Multiples
import MachineWord.Proofs.Arithmetic.Quotients
import MachineWord.Proofs.Arithmetic.Roundings
import MachineWord.Proofs.Arithmetic.Alignments
import MachineWord.Proofs.Address.Rendering
import MachineWord.Proofs.Hybrid.Origins
import MachineWord.Proofs.Hybrid.Ranges
import MachineWord.Proofs.Hybrid.Overflows
import MachineWord.Proofs.Value.Scans
import MachineWord.Proofs.Arithmetic.Shifts
import MachineWord.Register.Runs
import MachineWord.Proofs.Value.BitSets
import MachineWord.Value.Native
import MachineWord.Proofs.Value.Ordering
import MachineWord.Proofs.Value.Conversions
import MachineWord.Memory.Entries
import MachineWord.Proofs.Pointer.Dumps
import MachineWord.Proofs.ByteOrder.Conversions
import MachineWord.Proofs.Memory.Parts
import MachineWord.Proofs.Pointer.Regions
import MachineWord.Memory.Lines
import MachineWord.Proofs.Memory.Dumps
import MachineWord.Proofs.Hybrid.Effects
import MachineWord.Proofs.Hybrid.Dumps
