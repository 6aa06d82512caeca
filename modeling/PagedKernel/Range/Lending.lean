import PagedKernel.Range.Fresh

/-! Lending a buffer of one address space to another: its frames are mapped a
second time, as borrowed pages, inside the alias window. -/

namespace PagedKernel.Mmu

def translateIn (source : AddressSpace) (va : VirtualAddress) : Op Mmu (Option PhysicalAddress) :=
  Op.inspect fun v => source.translate v.machine.ram va

def framesOf (source : AddressSpace) (i : Nat) : Nat → Call AliasError Mmu (List Frame)
  | 0 => return []
  | n + 1 => do
    let page ← Page.ofIndex i
    match ← translateIn source page.base with
    | none => throw (.notMapped page.base)
    | some pa => return pa.frame :: (← framesOf source (i + 1) n)

/-- Maps frames as borrowed pages from page `first + mapped` on. -/
def lendFrames (first : Nat) (mapped : Nat) : List Frame → Call AliasError Mmu Unit
  | [] => pure ()
  | frame :: rest => do
    let page ← Page.ofIndex (first + mapped)
    try
      (assignBorrowed frame.base page.base true).adapt AliasError.paging
    catch cause =>
      rollback first mapped
      throw cause
    lendFrames first (mapped + 1) rest

def aliasWindow : Nat × Nat :=
  (MemoryLayout.aliasWindowStart / pageSize, MemoryLayout.aliasWindowEnd / pageSize)

def aliasRun (pages : Nat) : Op Mmu (Option VirtualAddress) := do
  match ← nextRun aliasWindow.1 pages with
  | none => return none
  | some base =>
    let stop ← lengthSum base.page.index.val pages
    return if stop ≤ aliasWindow.2 then some base else none

/-- Maps `length` bytes from the `user` address of the source space into the
alias window, and answers where they begin. -/
def lend (source? : Option AddressSpace) (user : VirtualAddress) (length : Nat) :
    Call AliasError Mmu VirtualAddress := do
  match source? with
  | none => throw .noSourceSpace
  | some source =>
    let pages := pagesTouched user.toMemoryAddress length
    if pages = 0 then
      throw .empty
    let first := user.page.index.val
    if pageCount < first + pages then
      throw (.notMapped user)
    let frames ← framesOf source first pages
    match ← aliasRun pages with
    | none => throw (.outOfVirtualSpace pages)
    | some kernel =>
      lendFrames kernel.page.index.val 0 frames
      Call.record (.range (.lent pages user kernel))
      kernel.page.join user.offset

def takeBack (kernel : VirtualAddress) (length : Nat) : Call AliasError Mmu Unit := do
  let pages := pagesTouched kernel.toMemoryAddress length
  if pages = 0 then
    throw .empty
  (unassign kernel.page.index.val pages).adapt AliasError.paging
  Call.record (.range (.lendingDropped pages kernel.page))

end PagedKernel.Mmu
