import PagedKernel.Io.Backend
import PagedKernel.Range.Arithmetic

/-! A read of a file into a user buffer, as a small state machine. Making it
lends the buffer to the kernel, since the device only knows kernel addresses;
the end of the read, in whatever way, takes exactly that loan back and stores
the result. Nothing here waits for the device. -/

namespace PagedKernel

/-- A loan of a user buffer: page-aligned kernel base and bytes mapped. -/
structure Loan where
  base : VirtualAddress
  span : Nat
  deriving DecidableEq

instance : Debug Loan where
  debug loan := Text.record "KernelAlias" [("base", debug loan.base), ("span", debug loan.span)]

structure Read where
  fd : Fd
  userBuffer : VirtualAddress
  kernelBuffer : VirtualAddress
  count : Nat
  loan : Option Loan
  state : ReadState
  slot : SlotId

namespace Read

variable {δ μ : Type}

/-- Prepares a read of `count` bytes. A read of no bytes borrows nothing. -/
def prepare (mapper : AliasMapper μ) (fd : Fd) (user : VirtualAddress) (count : Nat)
    (slot : SlotId) : Call AliasError μ Read := do
  if count = 0 then
    Call.record (.read (.prepared count fd user .zero))
    return ⟨fd, user, .zero, count, none, .notStarted, slot⟩
  else
    match checkedAdd count user.offset.toNat with
    | none => throw (.notMapped user)
    | some span =>
      let base ← mapper.lend user.page.base span
      let kernel ← base.add user.offset
      Call.record (.read (.prepared count fd user kernel))
      return ⟨fd, user, kernel, count, some ⟨base, span⟩, .notStarted, slot⟩

/-- Where the device writes, while the buffer is lent. -/
def buffer? (r : Read) : Option VirtualAddress :=
  r.loan.map fun _ => r.kernelBuffer

def holdsLoan (r : Read) : Bool :=
  r.loan.isSome

/-- Whether pages this read still borrows meet the pages of `length` bytes from
an address. -/
def borrows (r : Read) (va : VirtualAddress) (length : Nat) : Bool :=
  match r.loan with
  | none => false
  | some loan =>
    let first := r.userBuffer.page.index.val
    let stop := saturatingAdd first (pagesSpanning loan.span)
    let other := va.page.index.val
    let otherStop := saturatingAdd other (pagesTouched va.toMemoryAddress length)
    length != 0 && first < otherStop && other < stop

def dropEvent? (r : Read) : Option Event :=
  r.loan.map fun loan => .read (.dropped r.fd r.state loan.base loan.span)

def describe (slots : Slots) (r : Read) : String :=
  Text.tuple "Read" [Text.record "IoRead" [("fd", debug r.fd), ("user_buf", debug r.userBuffer),
    ("kernel_buf", debug r.kernelBuffer), ("count", debug r.count), ("alias", debug r.loan),
    ("state", debug r.state), ("result", slots.describe r.slot)]]

/-! A step of a read runs on the read and the world together. -/

def devicePart : Focus (Read × IoWorld δ μ) δ :=
  ⟨fun ⟨r, ⟨device, mapper, slots⟩⟩ => (device, fun device => (r, ⟨device, mapper, slots⟩))⟩

def mapperPart : Focus (Read × IoWorld δ μ) μ :=
  ⟨fun ⟨r, ⟨device, mapper, slots⟩⟩ => (mapper, fun mapper => (r, ⟨device, mapper, slots⟩))⟩

def onDevice {α : Type} (f : δ → α × δ) : Op (Read × IoWorld δ μ) α :=
  Op.zoom devicePart (Op.update f)

def setState (state : ReadState) : Op (Read × IoWorld δ μ) Unit :=
  Op.modify fun ⟨r, world⟩ => ({ r with state }, world)

def takeLoan : Op (Read × IoWorld δ μ) (Option Loan) :=
  Op.update fun ⟨r, world⟩ => (r.loan, ({ r with loan := none }, world))

def current : Op (Read × IoWorld δ μ) Read :=
  Op.read fun s => s.1

def releaseLoan (mapper : AliasMapper μ) : Op (Read × IoWorld δ μ) Unit := do
  if let some loan := ← takeLoan then
    if let .error cause := ← Op.zoom mapperPart (mapper.takeBack loan.base loan.span).run then
      let r ← current
      Op.record (.read (.lendingKept loan.base loan.span r.userBuffer cause))

def resolve (result : ReadResult) : Op (Read × IoWorld δ μ) Unit := do
  let stored ← Op.update fun ⟨r, ⟨device, mapper, slots⟩⟩ =>
    match slots.resolve r.slot result with
    | (stored, slots) => (stored, (r, ⟨device, mapper, slots⟩))
  if let .error rejected := stored then
    Op.record (.read (.resolvedTwice rejected))

/-- Ends the read: the loan goes back, then the result is stored. -/
def finish (mapper : AliasMapper μ) (result : ReadResult) : Op (Read × IoWorld δ μ) Unit := do
  releaseLoan mapper
  let r ← current
  match result with
  | .ok n =>
    setState .done
    Op.record (.read (.finished n r.fd))
  | .error cause =>
    setState .failed
    Op.record (.read (.failed r.fd cause))
  resolve result

/-- The largest distance a stream can be moved at once. -/
def maxSeek : Nat := 9223372036854775807

def advance (device : Device δ) (fd : Fd) (n : Nat) : Op (Read × IoWorld δ μ) ReadResult := do
  match ← onDevice (device.seek fd (min n maxSeek)) with
  | .ok () => return .ok n
  | .error cause => return .error (.device cause)

def readSynchronously (backend : Backend δ μ) : Op (Read × IoWorld δ μ) Unit := do
  let r ← current
  match ← onDevice (backend.device.syncRead r.fd r.kernelBuffer r.count) with
  | .ok n => finish backend.mapper (.ok n)
  | .error cause => finish backend.mapper (.error (.device cause))

/-- Whether a read need not wait for its device. One of no bytes never does. -/
def mayStart (backend : Backend δ μ) (r : Read) : Op (Read × IoWorld δ μ) Bool := do
  if r.count = 0 then
    return true
  return !(← onDevice (backend.device.busy r.fd))

/-- Polls for progress: a read waits for an idle device, and one in progress for
all its bytes. -/
def poll (backend : Backend δ μ) : Op (Read × IoWorld δ μ) ReadState := do
  let r ← current
  match r.state with
  | .notStarted =>
    if ← mayStart backend r then
      setState .ready
      Op.record (.read (.ready r.fd))
  | .inProgress =>
    match ← onDevice (backend.device.bytesReady r.fd) with
    | .ok n =>
      if n = r.count then
        finish backend.mapper (← advance backend.device r.fd n)
      else if r.count < n then
        finish backend.mapper (.error (.overrun r.count n))
      else
        Op.record (.read (.progress r.fd n r.count))
    | .error cause => finish backend.mapper (.error (.device cause))
  | _ => pure ()
  return (← current).state

/-- Issues a read that is ready, asynchronously where the backend and the device
allow it. -/
def issue (backend : Backend δ μ) : Op (Read × IoWorld δ μ) ReadState := do
  let r ← current
  if r.state = .ready then
    if r.count = 0 then
      finish backend.mapper (.ok 0)
    else if backend.asyncReads then
      match ← onDevice (backend.device.issue r.fd r.kernelBuffer r.count) with
      | .ok .notSupported =>
        Op.record (.read (.noAsyncRead r.fd))
        readSynchronously backend
      | .ok .accepted =>
        setState .inProgress
        Op.record (.read (.started r.fd))
      | .ok (.immediate n) =>
        if r.count < n then
          finish backend.mapper (.error (.overrun r.count n))
        else
          Op.record (.read (.buffered n r.fd))
          finish backend.mapper (← advance backend.device r.fd n)
      | .error cause => finish backend.mapper (.error (.device cause))
    else
      readSynchronously backend
  return (← current).state

/-- Abandons the read; `false` if it had ended already. -/
def cancel (mapper : AliasMapper μ) : Op (Read × IoWorld δ μ) Bool := do
  if (← current).state.isTerminal then
    return false
  finish mapper (.error .cancelled)
  return true

end Read
end PagedKernel
