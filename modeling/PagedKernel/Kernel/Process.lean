import PagedKernel.Kernel.Error
import PagedKernel.Space.Lifetime

/-! A process: its address space, what it waits for, and the outcome of its
last read. -/

namespace PagedKernel

structure Process where
  pid : ProcessId
  space : AddressSpace
  waiting : WaitingReason
  lastRead : Option ReadResult

namespace Process

/-- A process with an empty space, where nothing is handed out in the kernel
window. -/
def create (pid : ProcessId) : Call PagingError Machine Process := do
  let space ← AddressSpace.create
  return ⟨pid, space.reserveBelow MemoryLayout.kernelWindowPages (by decide), .notWaiting, none⟩

def isRunnable (p : Process) : Bool :=
  p.waiting == .notWaiting

def waitFor (reason : WaitingReason) (p : Process) : Process :=
  { p with waiting := reason }

def wake (result : ReadResult) (p : Process) : Process :=
  { p with waiting := .notWaiting, lastRead := some result }

instance : Debug Process where
  debug p := Text.record "Process" [("pid", debug p.pid), ("cr3", debug p.space.directoryAddress),
    ("waiting", debug p.waiting), ("last_io", debug p.lastRead)]

end Process
end PagedKernel
