import PagedKernel.Kernel.Basic

/-! What the kernel does: device mappings, processes, their memory, their reads,
and the scheduler's tick. -/

namespace PagedKernel.Kernel

variable {δ : Type}

/-- Whether a range may be mapped as device memory: it lies inside the kernel
window, or starts in the device window. -/
def isDeviceRange (base : PhysicalAddress) (size : Nat) : Bool :=
  saturatingAdd base.toNat size ≤ MemoryLayout.kernelWindowEnd ||
    MemoryLayout.deviceWindowStart ≤ base.toNat

def mapDevice (base : PhysicalAddress) (size : Nat) : Call KernelError Kernel Nat := do
  unless isDeviceRange base size do
    Call.record (.kernel (.deviceRefused base size))
    throw (.notDeviceMemory base size)
  let mapped ← ((Call.zoom spacePart (Mmu.mapIdentity base size true)).report
    fun e => .kernel (.deviceNotMapped base size e)).adapt KernelError.mapping
  Call.record (.kernel (.deviceMapped base size mapped))
  return mapped

def takePid : Op Kernel Unit := do
  if (← Op.read fun k => k.nextPid) < 4294967295 then
    Op.modify fun k => { k with nextPid := k.nextPid + 1 }
  else Op.fault .addOverflow

def addProcess (p : Process) : Op Kernel Unit :=
  Op.modify fun k => { k with processes := k.processes ++ [p] }

def spawn : Call KernelError Kernel ProcessId := do
  let pid : ProcessId := ⟨(← get).state.nextPid⟩
  let p ← (Call.zoom machinePart (Process.create pid)).adapt KernelError.paging
  takePid
  Call.record (.kernel (.spawned pid p.space.directoryAddress))
  addProcess p
  return pid

def requireProcess (pid : ProcessId) : Call KernelError Kernel Process := do
  match (← get).state.process? pid with
  | some p => return p
  | none => throw (.noSuchProcess pid)

/-- Maps zeroed memory for a process; it is never placed below the user base. -/
def map (pid : ProcessId) (hint : VirtualAddress) (length : Nat) (writable : Bool) :
    Call KernelError Kernel VirtualAddress := do
  let p ← requireProcess pid
  let start := hint.max MemoryLayout.userBaseAddress
  ((Call.zoom (processPart p) (Mmu.map start length writable true)).report
    fun e => .kernel (.mapFailed pid length e)).adapt KernelError.mapping

/-- Unmaps memory of a process, unless a queued read still writes into it. -/
def unmap (pid : ProcessId) (va : VirtualAddress) (length : Nat) :
    Call KernelError Kernel Unit := do
  let p ← requireProcess pid
  if (← get).state.queue.borrows pid va length then
    Call.record (.kernel (.unmapOverlaps pid va))
    throw (.bufferInUse pid va)
  ((Call.zoom (processPart p) (Mmu.unmap va length)).report
    fun e => .kernel (.unmapFailed pid va e)).adapt KernelError.mapping

def openSlot : Op Kernel SlotId :=
  Op.update fun ⟨machine, space, processes, nextPid, queue, slots⟩ =>
    match slots.handOut with
    | (id, slots) => (id, ⟨machine, space, processes, nextPid, queue, slots⟩)

def park (pid : ProcessId) (reason : WaitingReason) : Op Kernel Unit :=
  Op.modify (changeProcess pid (Process.waitFor reason))

/-- Queues a read for a process, parks the process, and answers the slot of the
result. -/
def read (pid : ProcessId) (fd : Fd) (buffer : VirtualAddress) (count : Nat) :
    Call KernelError Kernel SlotId := do
  let p ← requireProcess pid
  let slot := (← get).state.slots.cells.size
  let r ← ((Call.zoom spacePart
    (Read.prepare (Mmu.aliasMapper (some p.space)) fd buffer count slot)).report
    fun e => .kernel (.readRejected pid buffer e)).adapt KernelError.aliasing
  let slot ← openSlot
  Call.zoomOp queuePart (ReadQueue.submit pid r)
  park pid .fileReading
  return slot

def wakeAll (ended : List Completion) (k : Kernel) : Kernel :=
  ended.foldl (fun k c => k.changeProcess c.pid (Process.wake c.result)) k

def reasonFor : ReadState → WaitingReason
  | .notStarted => .deviceBusy
  | _ => .fileReading

def parkAll (k : Kernel) : Kernel :=
  k.queue.entries.foldl
    (fun k e => k.changeProcess e.pid (Process.waitFor (reasonFor e.read.state))) k

/-- Polls the queue once, then wakes and parks processes accordingly. -/
def tick (device : Device δ) (asyncReads : Bool) : Op (Kernel × δ) (List Completion) := do
  let ended ← Op.zoom readsPart (ReadQueue.pollAll ⟨device, Mmu.aliasMapper none, asyncReads⟩)
  Op.modify fun ⟨k, device⟩ => ((wakeAll ended k).parkAll, device)
  return ended

def removeProcess (pid : ProcessId) : Op Kernel Unit :=
  Op.modify fun k => { k with processes := k.processes.filter fun p => p.pid ≠ pid }

/-- Ends a process: its reads are cancelled, then its frames go back. -/
def exit (pid : ProcessId) : Call KernelError Kernel Unit := do
  let p ← requireProcess pid
  removeProcess pid
  let cancelled ← Call.zoomOp idleReadsPart (ReadQueue.cancelProcess (Mmu.aliasMapper none) pid)
  Call.zoomOp machinePart p.space.release
  Call.record (.kernel (.exited pid cancelled.length (← get).state.freeFrames))

end PagedKernel.Kernel
