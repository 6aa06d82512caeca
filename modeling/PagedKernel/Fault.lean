import PagedKernel.Text.Hex

/-! Faults: what stops an operation in the middle. A fault is never an answer
to a request; it marks a broken assumption of the caller (an index out of its
range, arithmetic that leaves its width, memory that does not exist). -/

namespace PagedKernel

inductive Fault where
  /-- A sum leaves the width of its operands. -/
  | addOverflow
  /-- A difference would be negative. -/
  | subOverflow
  /-- A page or frame number at or above the number of pages. -/
  | pageIndex
  /-- An in-page offset of a page size or more. -/
  | pageOffset
  /-- A directory or table index of 1024 or more. -/
  | entryIndex
  /-- A value that does not fit the bit field it is stored in. -/
  | fieldBounds (largest : Nat)
  /-- A physical frame beyond the installed memory. -/
  | frameMissing (installed index : Nat)
  /-- A physical address the identity window does not reach. -/
  | outsideWindow (address : UInt32)
  deriving DecidableEq

namespace Fault

def message : Fault → String
  | addOverflow => "attempt to add with overflow"
  | subOverflow => "attempt to subtract with overflow"
  | pageIndex => "assertion failed: index < PAGES_PER_ADDRESS_SPACE"
  | pageOffset => "assertion failed: offset < crate::PAGE_SIZE"
  | entryIndex => "assertion failed: (v as usize) < ENTRIES_PER_TABLE"
  | fieldBounds largest => s!"value out of bounds [0, {largest}]"
  | frameMissing installed index =>
    s!"index out of bounds: the len is {installed} but the index is {index}"
  | outsideWindow address => Text.hexWord address ++ " is outside the identity window"

end Fault
end PagedKernel
