import PagedKernel.Kernel.Calls
import PagedKernel.Sync.SpinLock
import PagedKernel.Installation.Logging

/-! The process-wide kernel: brought up once, used behind its lock. -/

namespace PagedKernel

structure Installation where
  logging : Logging
  /-- The machine, until a kernel takes it over. -/
  machine : Machine
  kernel : OnceCell (SpinLock Kernel)

namespace Installation

variable {β ω : Type}

def fresh : Installation :=
  ⟨.fresh, ⟨.identityWindow, .empty⟩, .empty⟩

def machinePart : Focus Installation Machine :=
  ⟨fun ⟨logging, machine, kernel⟩ => (machine, fun machine => ⟨logging, machine, kernel⟩)⟩

def installForeign : Op Installation Bool :=
  Op.update fun ⟨logging, machine, kernel⟩ =>
    (logging.installForeign.1, ⟨logging.installForeign.2, machine, kernel⟩)

def installOwn (filter : Option Level) : Op Installation (Except LoggerError Unit) :=
  Op.update fun ⟨logging, machine, kernel⟩ =>
    ((logging.init filter).1, ⟨(logging.init filter).2, machine, kernel⟩)

def initLogging (filter : Option Level) : Call KernelError Installation Unit := do
  let outcome ← installOwn filter
  if let .error cause := outcome then
    throw (.logger cause)
  Call.record (.kernel .reporting)

/-- The kernel takes the machine over, and none is left here. -/
def takeOver (space : AddressSpace) : Op Installation Unit :=
  Op.modify fun ⟨logging, machine, kernel⟩ =>
    ⟨logging, ⟨⟨#[], .identityWindow⟩, .empty⟩,
      (kernel.set (.ofValue (.ofBoot machine space))).2⟩

def ram (i : Installation) : Ram :=
  match i.kernel.get? with
  | some lock => lock.value.machine.ram
  | none => i.machine.ram

def initKernel (map : BootMap) (kernelEnd : PhysicalAddress) :
    Call KernelError Installation Unit := do
  if (← get).state.kernel.isReady then
    throw .alreadyInitialized
  let bytes ← BootMap.usableBytes map
  Call.record (.kernel (.initializing (bytes / 1024)))
  let space ← Call.zoom machinePart (Kernel.boot map kernelEnd)
  takeOver space

/-- Runs with the kernel locked and a state of the caller at hand. There is no
answer when it is locked already: the caller would wait forever. A fault gives
the lock back and goes on to the caller. -/
def withKernel (x : Op (Kernel × ω) β) : Call KernelError (Installation × ω) (Option β) :=
  ExceptT.mk fun
  | ⟨(⟨logging, machine, .ready lock⟩, w), events⟩ =>
    match lock.withLock (fun ⟨locked, kernel⟩ =>
      match x ⟨(kernel, w), events⟩ with
      | .ok b ⟨(kernel, w), events⟩ => ((Except.ok b, w, events), ⟨locked, kernel⟩)
      | .error f ⟨(kernel, w), events⟩ => ((.error f, w, events), ⟨locked, kernel⟩)) with
    | some ((.ok b, w, events), lock) =>
      .ok (.ok (some b)) ⟨(⟨logging, machine, .ready lock⟩, w), events⟩
    | some ((.error f, w, events), lock) =>
      .error f ⟨(⟨logging, machine, .ready lock⟩, w), events⟩
    | none => .ok (.ok none) ⟨(⟨logging, machine, .ready lock⟩, w), events⟩
  | t => .ok (.error .notInitialized) t

end Installation
end PagedKernel
