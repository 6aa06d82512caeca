import PagedKernel.Io.Queue
import PagedKernel.Kernel.Process
import PagedKernel.Range.Identity
import PagedKernel.Range.Mapper

/-! The kernel's state, and how it comes up. The frame pool and every address
space change together; processes are kept in the order of their numbers. -/

namespace PagedKernel

structure Kernel where
  machine : Machine
  space : AddressSpace
  processes : List Process
  nextPid : Nat
  queue : ReadQueue
  slots : Slots

namespace Kernel

variable {ε α δ : Type}

def ofBoot (machine : Machine) (space : AddressSpace) : Kernel :=
  ⟨machine, space, [], 1, .empty, .empty⟩

/-- Identity-maps the usable regions as far as they lie below the window's end,
and counts the new pages. -/
def mapRegions (mapped : Nat) : List Region → Call MappingError Mmu Nat
  | [] => return mapped
  | r :: rest => do
    match r.start with
    | none => mapRegions mapped rest
    | some start =>
      if MemoryLayout.kernelWindowEnd ≤ start.toNat then mapRegions mapped rest
      else
        let length ← lengthDifference (min r.endClipped MemoryLayout.kernelWindowEnd) start.toNat
        let more ← Mmu.mapIdentity start length true
        mapRegions (← lengthSum mapped more) rest

/-- Identity-maps the kernel image and all usable memory below the window's
end. -/
@[irreducible]
def mapBootMemory (map : BootMap) (kernelEnd : PhysicalAddress) : Call MappingError Mmu Nat := do
  let image := PhysicalAddress.ofBits (UInt32.ofNat MemoryLayout.imageStart)
  let mapped ← Mmu.mapIdentity image (kernelEnd.toNat - MemoryLayout.imageStart) true
  mapRegions mapped (BootMap.usable map)

def poolPart : Focus Machine FramePool :=
  ⟨fun ⟨ram, pool⟩ => (pool, fun pool => ⟨ram, pool⟩)⟩

def withSpace (space : AddressSpace) (x : Call ε Mmu α) : Call ε Machine (α × AddressSpace) :=
  ExceptT.mk fun ⟨machine, events⟩ =>
    match x.run ⟨⟨machine, space⟩, events⟩ with
    | .ok (.ok a) ⟨⟨machine, space⟩, events⟩ => .ok (.ok (a, space)) ⟨machine, events⟩
    | .ok (.error e) ⟨⟨machine, _⟩, events⟩ => .ok (.error e) ⟨machine, events⟩
    | .error f ⟨⟨machine, _⟩, events⟩ => .error f ⟨machine, events⟩

/-- Seeds the frame pool and builds the kernel space. Everything below
`kernelEnd` is kept for the kernel image. -/
def boot (map : BootMap) (kernelEnd : PhysicalAddress) : Call KernelError Machine AddressSpace := do
  Call.zoomOp poolPart (FramePool.seed map kernelEnd)
  let space ← AddressSpace.create.adapt KernelError.paging
  let (mapped, space) ← (withSpace space (mapBootMemory map kernelEnd)).adapt KernelError.mapping
  Call.record (.kernel (.booted mapped (← get).state.pool.available))
  return space

def freeFrames (k : Kernel) : Nat :=
  k.machine.pool.available

def process? (k : Kernel) (pid : ProcessId) : Option Process :=
  k.processes.find? fun p => p.pid = pid

def changeProcess (pid : ProcessId) (f : Process → Process) (k : Kernel) : Kernel :=
  { k with processes := k.processes.map fun p => if p.pid = pid then f p else p }

def space? (k : Kernel) : Option ProcessId → Option AddressSpace
  | none => some k.space
  | some pid => (k.process? pid).map (·.space)

def translate (k : Kernel) (pid : ProcessId) (va : VirtualAddress) :
    Except Fault (Option PhysicalAddress) :=
  match k.process? pid with
  | none => .ok none
  | some p => p.space.translate k.machine.ram va

/-! Parts of the kernel that operations run on. -/

def machinePart : Focus Kernel Machine :=
  ⟨fun ⟨machine, space, processes, nextPid, queue, slots⟩ =>
    (machine, fun machine => ⟨machine, space, processes, nextPid, queue, slots⟩)⟩

def queuePart : Focus Kernel ReadQueue :=
  ⟨fun ⟨machine, space, processes, nextPid, queue, slots⟩ =>
    (queue, fun queue => ⟨machine, space, processes, nextPid, queue, slots⟩)⟩

def spacePart : Focus Kernel Mmu :=
  ⟨fun ⟨machine, space, processes, nextPid, queue, slots⟩ =>
    (⟨machine, space⟩,
      fun ⟨machine, space⟩ => ⟨machine, space, processes, nextPid, queue, slots⟩)⟩

def processPart (p : Process) : Focus Kernel Mmu :=
  ⟨fun ⟨machine, space, processes, nextPid, queue, slots⟩ =>
    (⟨machine, p.space⟩, fun ⟨machine, changed⟩ =>
      changeProcess p.pid (fun q => { q with space := changed })
        ⟨machine, space, processes, nextPid, queue, slots⟩)⟩

def readsPart : Focus (Kernel × δ) (ReadQueue × IoWorld δ Mmu) :=
  ⟨fun ⟨⟨machine, space, processes, nextPid, queue, slots⟩, device⟩ =>
    ((queue, ⟨device, ⟨machine, space⟩, slots⟩),
      fun ⟨queue, ⟨device, ⟨machine, space⟩, slots⟩⟩ =>
        (⟨machine, space, processes, nextPid, queue, slots⟩, device))⟩

def idleReadsPart : Focus Kernel (ReadQueue × IoWorld Unit Mmu) :=
  ⟨fun ⟨machine, space, processes, nextPid, queue, slots⟩ =>
    ((queue, ⟨(), ⟨machine, space⟩, slots⟩),
      fun ⟨queue, ⟨_, ⟨machine, space⟩, slots⟩⟩ =>
        ⟨machine, space, processes, nextPid, queue, slots⟩)⟩

end Kernel
end PagedKernel
