import PagedKernel.Space.Basic

/-! One address space on its machine, and the steps every change of a mapping
is made of: reading and writing entries, counting them, and creating and
releasing page tables. -/

namespace PagedKernel

structure Mmu where
  machine : Machine
  space : AddressSpace

namespace Mmu

def machinePart : Focus Mmu Machine :=
  ⟨fun ⟨machine, space⟩ => (machine, fun machine => ⟨machine, space⟩)⟩

def onMachine {α : Type} (x : Op Machine α) : Op Mmu α :=
  Op.zoom machinePart x

def entry (va : VirtualAddress) : Op Mmu TableEntry :=
  Op.inspect fun v => v.space.entry v.machine.ram va

def translate (va : VirtualAddress) : Op Mmu (Option PhysicalAddress) :=
  Op.inspect fun v => v.space.translate v.machine.ram va

def takeFrame : Op Mmu (Option Frame) :=
  onMachine Machine.takeFrame

def freeFrame (f : Frame) : Op Mmu (Except FrameError Unit) :=
  onMachine (Machine.freeFrame f)

def reserveFrame (f : Frame) : Op Mmu (Except FrameError Unit) :=
  onMachine (Machine.reserveFrame f)

def zeroFrame (f : Frame) : Op Mmu Unit :=
  onMachine (Machine.zeroFrame f)

def tableEntry (table : Frame) (i : EntryIndex) : Op Mmu TableEntry :=
  onMachine (Machine.tableEntry table i)

def setTableEntry (table : Frame) (i : EntryIndex) (e : TableEntry) : Op Mmu Unit :=
  onMachine (Machine.setTableEntry table i e)

def directoryEntry (i : EntryIndex) : Op Mmu DirectoryEntry := do
  let directory ← Op.read fun v => v.space.directory
  onMachine (Machine.directoryEntry directory i)

def setDirectoryEntry (i : EntryIndex) (e : DirectoryEntry) : Op Mmu Unit := do
  let directory ← Op.read fun v => v.space.directory
  onMachine (Machine.setDirectoryEntry directory i e)

def incrementOccupancy (i : EntryIndex) : Op Mmu Unit := do
  let n ← Op.read fun v => v.space.occupancy.get i
  if n < 65535 then
    Op.modify fun ⟨machine, ⟨directory, virtualPages, occupancy⟩⟩ =>
      ⟨machine, ⟨directory, virtualPages, occupancy.set i.val (n + 1) i.isLt⟩⟩
  else Op.fault .addOverflow

def decrementOccupancy (i : EntryIndex) : Op Mmu Unit := do
  match ← Op.read fun v => v.space.occupancy.get i with
  | n + 1 =>
    Op.modify fun ⟨machine, ⟨directory, virtualPages, occupancy⟩⟩ =>
      ⟨machine, ⟨directory, virtualPages, occupancy.set i.val n i.isLt⟩⟩
  | 0 => Op.fault .subOverflow

def markPage (page : Page) (available : Bool) : Op Mmu Unit :=
  Op.modify fun ⟨machine, ⟨directory, virtualPages, occupancy⟩⟩ =>
    ⟨machine, ⟨directory, virtualPages.write page.index.val available page.index.isLt, occupancy⟩⟩

def markPages (start stop : Nat) (available : Bool) (h : stop ≤ pageCount) : Op Mmu Unit :=
  Op.modify fun ⟨machine, ⟨directory, virtualPages, occupancy⟩⟩ =>
    ⟨machine, ⟨directory, virtualPages.fillFrom available start stop h, occupancy⟩⟩

def markRange (start count : Nat) (available : Bool) : Call PagingError Mmu Unit := do
  if h : start + count ≤ pageCount then
    markPages start (start + count) available h
  else throw (.ofBitmap ⟨start, count, pageCount⟩)

/-- The page table below a slot; a zeroed one is linked if there is none. -/
def ensureTable (i : EntryIndex) (user : Bool) : Call PagingError Mmu Frame := do
  let link ← directoryEntry i
  match link.table? with
  | some table =>
    if user && !link.flags.userAccess then
      setDirectoryEntry i (link.withUserAccess true)
    return table
  | none =>
    match ← takeFrame with
    | none => throw .outOfFrames
    | some table =>
      zeroFrame table
      setDirectoryEntry i (.ofTable table user)
      Call.record (.space (.tableLinked table i.val))
      return table

/-- Unlinks the page table below a slot and gives its frame back, when no entry
below the slot is present. -/
def releaseTableIfEmpty (i : EntryIndex) : Op Mmu Unit := do
  if (← Op.read fun v => v.space.occupancy.get i) = 0 then
    if let some table := (← directoryEntry i).table? then
      setDirectoryEntry i .zero
      if let .error cause := ← freeFrame table then
        Op.record (.space (.tableNotFreed table cause))
      Op.record (.space (.tableReleased table i.val))

end Mmu
end PagedKernel
