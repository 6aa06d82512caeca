import PagedKernel.Io.Error
import PagedKernel.Log.Operation
import PagedKernel.Sync.OnceCell

/-! What a read works with: a device, a mapper that lends user buffers to the
kernel, and the slots that hold results. Device and mapper are given by their
operations on a state of their own. -/

namespace PagedKernel

inductive AsyncIssue where
  | notSupported
  | accepted
  /-- The bytes were buffered and are copied; the stream has not moved. -/
  | immediate (bytes : Nat)

structure Device (δ : Type) where
  busy : Fd → δ → Bool × δ
  issue : Fd → VirtualAddress → Nat → δ → Except DeviceError AsyncIssue × δ
  bytesReady : Fd → δ → Except DeviceError Nat × δ
  /-- Moves the stream forward. -/
  seek : Fd → Nat → δ → Except DeviceError Unit × δ
  syncRead : Fd → VirtualAddress → Nat → δ → Except DeviceError Nat × δ

/-- Lends user buffers to the kernel space. What was lent is taken back with the
same base and length. -/
structure AliasMapper (μ : Type) where
  lend : VirtualAddress → Nat → Call AliasError μ VirtualAddress
  takeBack : VirtualAddress → Nat → Call AliasError μ Unit

structure Backend (δ μ : Type) where
  device : Device δ
  mapper : AliasMapper μ
  /-- Whether reads are tried asynchronously first. -/
  asyncReads : Bool

abbrev SlotId := Nat

structure Slots where
  cells : Array (OnceCell ReadResult)

namespace Slots

def empty : Slots := ⟨#[]⟩

def handOut : Slots → SlotId × Slots
  | ⟨cells⟩ => (cells.size, ⟨cells.push .empty⟩)

def get? (slots : Slots) (id : SlotId) : Option ReadResult :=
  slots.cells[id]?.bind OnceCell.get?

/-- Stores a result; a second one is handed back. -/
def resolve (id : SlotId) (result : ReadResult) (slots : Slots) : Except ReadResult Unit × Slots :=
  match slots.cells[id]? with
  | none => (.error result, slots)
  | some cell =>
    match cell.set result with
    | (stored, cell) => (stored, ⟨slots.cells.setIfInBounds id cell⟩)

def describe (slots : Slots) (id : SlotId) : String :=
  Text.tuple "ResultSlot" [debug (slots.get? id)]

theorem get?_handOut (slots : Slots) : slots.handOut.2.get? slots.handOut.1 = none := by
  simp only [handOut, get?, Array.getElem?_push_size, Option.bind_some, OnceCell.get?]

end Slots

structure IoWorld (δ μ : Type) where
  device : δ
  mapper : μ
  slots : Slots

end PagedKernel
