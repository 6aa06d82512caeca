import PagedKernel.FramePool.Seed
import PagedKernel.Log.Operation
import PagedKernel.Machine.Ram

/-! The machine that all address spaces share: physical memory and the pool of
its frames. -/

namespace PagedKernel

structure Machine where
  ram : Ram
  pool : FramePool

namespace Machine

def takeFrame : Op Machine (Option Frame) := do
  let taken ← Op.update fun ⟨ram, pool⟩ =>
    match pool.alloc with
    | (taken, pool) => (taken, ⟨ram, pool⟩)
  if let some f := taken then
    Op.record (.frames (.taken f))
  return taken

/-- Takes up to `n` frames, behind those taken before, the last one first. -/
def takeFrames (taken : List Frame) : Nat → Op Machine (List Frame)
  | 0 => return taken
  | n + 1 => do
    match ← takeFrame with
    | some f => takeFrames (f :: taken) n
    | none => return taken

def freeFrame (f : Frame) : Op Machine (Except FrameError Unit) := do
  let freed ← Op.update fun ⟨ram, pool⟩ =>
    match pool.free f with
    | (freed, pool) => (freed, ⟨ram, pool⟩)
  if let .ok () := freed then
    Op.record (.frames (.returned f))
  return freed

def reserveFrame (f : Frame) : Op Machine (Except FrameError Unit) :=
  Op.update fun ⟨ram, pool⟩ =>
    match pool.reserve f with
    | (reserved, pool) => (reserved, ⟨ram, pool⟩)

def releaseRange (first count : Nat) : Op Machine Unit :=
  Op.modify fun ⟨ram, pool⟩ => ⟨ram, pool.releaseRange first count⟩

def changeFrame (f : Frame) (g : FrameWords → FrameWords) : Op Machine Unit := do
  Op.inspect fun m => m.ram.check f.base
  Op.modify fun ⟨ram, pool⟩ => ⟨ram.change f g, pool⟩

def zeroFrame (f : Frame) : Op Machine Unit :=
  changeFrame f fun _ => FrameWords.zero

def directoryEntry (directory : Frame) (i : EntryIndex) : Op Machine DirectoryEntry :=
  Op.inspect fun m => do return (← m.ram.directory directory).get i

def setDirectoryEntry (directory : Frame) (i : EntryIndex) (e : DirectoryEntry) :
    Op Machine Unit :=
  changeFrame directory fun words => ((PageDirectory.mk words).set i e).words

def tableEntry (table : Frame) (i : EntryIndex) : Op Machine TableEntry :=
  Op.inspect fun m => do return (← m.ram.table table).get i

def setTableEntry (table : Frame) (i : EntryIndex) (e : TableEntry) : Op Machine Unit :=
  changeFrame table fun words => ((PageTable.mk words).set i e).words

def writeBytes (pa : PhysicalAddress) : Nat → List UInt8 → Op Machine Unit
  | _, [] => pure ()
  | i, b :: rest => do
    let target ← (pa.add (UInt32.ofNat i) : Except Fault PhysicalAddress)
    Op.inspect fun m => m.ram.check target
    Op.modify fun ⟨ram, pool⟩ => ⟨ram.setByte target b, pool⟩
    writeBytes pa (i + 1) rest

end Machine

namespace FramePool

/-- A pool seeded from the boot map, keeping everything below `reservedEnd`. -/
def seed (map : BootMap) (reservedEnd : PhysicalAddress) : Op FramePool Unit := do
  let seeding := Seeding.ofBootMap map reservedEnd
  let unmanaged ← seeding.unmanaged
  Op.record (.frames (.seeded seeding.pool.available (BootMap.usable map).length))
  if 0 < unmanaged then
    Op.record (.frames (.leftUnmanaged unmanaged))
  Op.modify fun _ => seeding.pool

end FramePool
end PagedKernel
