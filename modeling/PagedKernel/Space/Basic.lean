import PagedKernel.Machine.Basic

/-! An address space: its page directory, the virtual pages it may still hand
out, and the number of present entries below each directory slot. Directory
and tables themselves live in physical memory. -/

namespace PagedKernel

structure AddressSpace where
  directory : Frame
  /-- Pages that may still be handed out. -/
  virtualPages : Bitmap pageCount
  /-- Present entries below each directory slot. -/
  occupancy : Vector Nat entriesPerTable

namespace AddressSpace

/-- A space over a zeroed directory. Page 0 is never handed out. -/
def fresh (directory : Frame) : AddressSpace where
  directory := directory
  virtualPages := (Bitmap.filled pageCount true).write 0 false pageCount_pos
  occupancy := Vector.replicate entriesPerTable 0

def reserveBelow (s : AddressSpace) (stop : Nat) (h : stop ≤ pageCount) : AddressSpace :=
  { s with virtualPages := s.virtualPages.fillFrom false 0 stop h }

def directoryAddress (s : AddressSpace) : PhysicalAddress :=
  s.directory.base

def nextRun (s : AddressSpace) (start n : Nat) : Option VirtualAddress :=
  (s.virtualPages.findRun true start n).map fun i => (Page.mk i).base

def nextAvailable (s : AddressSpace) (start : VirtualAddress) : Option VirtualAddress :=
  (s.virtualPages.nextTrue start.page.index.val).map fun i => (Page.mk i).base

def isAvailable (s : AddressSpace) (page : Nat) : Bool :=
  (s.virtualPages.get? page).getD false

def availablePages (s : AddressSpace) : Nat :=
  s.virtualPages.countTrue

def mappedPages (s : AddressSpace) : Nat :=
  s.occupancy.foldl (· + ·) 0

def slotPresent (s : AddressSpace) (ram : Ram) (slot : Nat) : Except Fault Bool :=
  if h : slot < entriesPerTable then do
    return ((← ram.directory s.directory).get ⟨slot, h⟩).isPresent
  else .ok false

def entry (s : AddressSpace) (ram : Ram) (va : VirtualAddress) : Except Fault TableEntry := do
  match ((← ram.directory s.directory).get va.directoryIndex).table? with
  | none => return .zero
  | some table => return (← ram.table table).get va.tableIndex

def translate (s : AddressSpace) (ram : Ram) (va : VirtualAddress) :
    Except Fault (Option PhysicalAddress) := do
  match (← s.entry ram va).mapping? with
  | none => return none
  | some (frame, _) => return some (← frame.join va.offset)

def linkedSlots (s : AddressSpace) (ram : Ram) : Except Fault (List EntryIndex) := do
  return (← ram.directory s.directory).present.map (·.1)

/-- The bytes from a virtual address on, up to the first that is not mapped.
Addresses wrap at the end of the space. -/
def load (s : AddressSpace) (ram : Ram) (va : VirtualAddress) :
    Nat → Except Fault (List UInt8)
  | 0 => .ok []
  | n + 1 => do
    match ← s.translate ram va with
    | none => return []
    | some pa => return (← ram.byte pa) :: (← s.load ram (.ofBits (va.bits + 1)) n)

end AddressSpace

/-- Stores bytes at addresses of a space, up to the first address that is
not mapped, and counts them. -/
def Machine.store (s : AddressSpace) (va : VirtualAddress) : List UInt8 → Op Machine Nat
  | [] => pure 0
  | b :: rest => do
    match ← Op.inspect fun m => s.translate m.ram va with
    | none => return 0
    | some pa =>
      Machine.writeBytes pa 0 [b]
      return 1 + (← Machine.store s (.ofBits (va.bits + 1)) rest)

end PagedKernel
