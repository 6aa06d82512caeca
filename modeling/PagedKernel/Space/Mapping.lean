import PagedKernel.Space.Mmu

/-! Changing what an address space maps. A mapping owns its frame or borrows
it; only owned frames go back to the pool. Taking pages down is all or
nothing. -/

namespace PagedKernel.Mmu

def assign (pa : PhysicalAddress) (va : VirtualAddress) (flags : EntryBits) :
    Call PagingError Mmu Unit := do
  let page := va.page
  if page.index.val = 0 then
    throw .nullPage
  if (← entry va).isPresent then
    throw (.alreadyMapped page.base)
  let table ← ensureTable va.directoryIndex flags.userAccess
  let frame := pa.frame
  unless flags.borrowed do
    if let .error cause := ← reserveFrame frame then
      releaseTableIfEmpty va.directoryIndex
      throw (.frame cause)
  setTableEntry table va.tableIndex (.ofFrame frame flags)
  incrementOccupancy va.directoryIndex
  markPage page false
  Call.record (.space (.mapped page frame flags.writable flags.userAccess flags.borrowed))

def assignOwned (pa : PhysicalAddress) (va : VirtualAddress) (writable user : Bool) :
    Call PagingError Mmu Unit :=
  assign pa va (.leaf writable user false)

def assignBorrowed (pa : PhysicalAddress) (va : VirtualAddress) (writable : Bool) :
    Call PagingError Mmu Unit :=
  assign pa va (.leaf writable false true)

/-- The first page without a present entry among `n` pages from `i`. -/
def firstAbsent (i : Nat) : Nat → Op Mmu (Option Nat)
  | 0 => return none
  | n + 1 => do
    let page ← Page.ofIndex i
    if (← entry page.base).isPresent then firstAbsent (i + 1) n else return some i

/-- Takes down the entry of one page and gives back the frame it owns. -/
def unassignPage (i : Nat) : Op Mmu Unit := do
  let (directoryIndex, tableIndex) ← splitPageIndex i
  if let some table := (← directoryEntry directoryIndex).table? then
    let old ← tableEntry table tableIndex
    unless old.isBorrowed do
      if let .error cause := ← freeFrame old.frame then
        Op.record (.space (.pageNotFreed i old.frame cause))
    setTableEntry table tableIndex .zero
    decrementOccupancy directoryIndex
    releaseTableIfEmpty directoryIndex

def unassignPages (i : Nat) : Nat → Op Mmu Unit
  | 0 => return ()
  | n + 1 => do
    unassignPage i
    unassignPages (i + 1) n

/-- Unmaps a range of pages, or refuses and changes nothing. -/
def unassign (start count : Nat) : Call PagingError Mmu Unit := do
  if pageCount < start + count then
    throw (.outOfRange start count)
  if let some page := ← firstAbsent start count then
    throw (.notPresent page)
  unassignPages start count
  markRange start count true
  Call.record (.space (.unmapped count start))

/-- Keeps a range of pages from being handed out, without mapping it. -/
def reserveRange (start count : Nat) : Call PagingError Mmu Unit :=
  markRange start count false

end PagedKernel.Mmu
