import PagedKernel.Bench.ScriptedDevice
import PagedKernel.Kernel.Syscall
import PagedKernel.Installation.Basic

/-! A bench for the kernel: the kernel with the scripted device, and the slots
that reads were answered with, by number. -/

namespace PagedKernel

structure Session where
  kernel : Kernel
  device : ScriptedDevice.State
  /-- The slots handed out by reads, in order. -/
  handed : Array SlotId
  asyncReads : Bool

namespace Session

def ofKernel (kernel : Kernel) (asyncReads : Bool) : Session :=
  ⟨kernel, .initial, #[], asyncReads⟩

def clearCalls (s : Session) : Session :=
  { s with device := s.device.clearCalls }

def kernelPart : Focus Session Kernel :=
  ⟨fun ⟨kernel, device, handed, asyncReads⟩ =>
    (kernel, fun kernel => ⟨kernel, device, handed, asyncReads⟩)⟩

def tickPart : Focus Session (Kernel × ScriptedDevice.State) :=
  ⟨fun ⟨kernel, device, handed, asyncReads⟩ =>
    ((kernel, device), fun (kernel, device) => ⟨kernel, device, handed, asyncReads⟩)⟩

def addSlot (id : SlotId) : Op Session Nat :=
  Op.update fun s => (s.handed.size, { s with handed := s.handed.push id })

def read (pid : ProcessId) (fd : Fd) (buffer : VirtualAddress) (count : Nat) :
    Call KernelError Session Nat := do
  let id ← Call.zoom kernelPart (Kernel.read pid fd buffer count)
  addSlot id

def result? (s : Session) (n : Nat) : Option ReadResult :=
  s.handed[n]?.bind s.kernel.slots.get?

def tick : Op Session (List Completion) := do
  let asyncReads ← Op.read fun s => s.asyncReads
  Op.zoom tickPart (Kernel.tick ScriptedDevice.device asyncReads)

def inSpace {α : Type} (f : AddressSpace → Ram → Except Fault α) (pid? : Option ProcessId) :
    Op Session (Option α) :=
  Op.inspect fun s =>
    match s.kernel.space? pid? with
    | none => .ok none
    | some space => (f space s.kernel.machine.ram).map some

def store (pid? : Option ProcessId) (va : VirtualAddress) (data : List UInt8) :
    Op Session Nat := do
  match ← Op.read fun s => s.kernel.space? pid? with
  | none => return 0
  | some space =>
    Op.zoom kernelPart (Op.zoom Kernel.machinePart (Machine.store space va data))

end Session

/-- The process-wide kernel with the device and the slots of its sessions. -/
structure Host where
  installed : Installation
  device : ScriptedDevice.State
  handed : Array SlotId

namespace Host

def fresh : Host := ⟨.fresh, .initial, #[]⟩

def installedPart : Focus Host Installation :=
  ⟨fun ⟨installed, device, handed⟩ => (installed, fun installed => ⟨installed, device, handed⟩)⟩

def sessionPart : Focus Host (Installation × ScriptedDevice.State × Array SlotId) :=
  ⟨fun ⟨installed, device, handed⟩ =>
    ((installed, device, handed), fun (installed, device, handed) => ⟨installed, device, handed⟩)⟩

def asSession : Focus (Kernel × ScriptedDevice.State × Array SlotId) Session :=
  ⟨fun (kernel, device, handed) =>
    (⟨kernel, device, handed, true⟩, fun ⟨kernel, device, handed, _⟩ => (kernel, device, handed))⟩

def withSession {β : Type} (x : Op Session β) : Call KernelError Host (Option β) :=
  Call.zoom sessionPart (Installation.withKernel (Op.zoom asSession x))

end Host
end PagedKernel
