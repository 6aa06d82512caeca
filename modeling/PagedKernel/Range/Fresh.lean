import PagedKernel.Range.Arithmetic
import PagedKernel.Space.Mapping

/-! Mapping and unmapping anonymous memory. A new range is placed at the first
run of available pages and filled with zeroed frames; when frames run out, the
pages mapped so far are unmapped again. -/

namespace PagedKernel.Mmu

def mapFresh (va : VirtualAddress) (writable user : Bool) : Call MappingError Mmu Unit := do
  match ← takeFrame with
  | none => throw .outOfMemory
  | some frame =>
    zeroFrame frame
    if let .error cause := ← (assignOwned frame.base va writable user).run then
      if let .error stuck := ← freeFrame frame then
        Call.record (.range (.freshNotReturned frame stuck))
      throw (.ofPaging cause)

/-- Unmaps the pages mapped by a request that could not be completed. -/
def rollback (first mapped : Nat) : Op Mmu Unit := do
  unless mapped = 0 do
    if let .error cause := ← (unassign first mapped).run then
      Op.record (.range (.rollbackFailed mapped first cause))

/-- Maps the remaining pages of a range of which `mapped` are mapped already. -/
def mapFreshPages (first : Nat) (writable user : Bool) (mapped : Nat) :
    Nat → Call MappingError Mmu Unit
  | 0 => pure ()
  | remaining + 1 => do
    let page ← Page.ofIndex (first + mapped)
    try
      mapFresh page.base writable user
    catch cause =>
      rollback first mapped
      throw cause
    mapFreshPages first writable user (mapped + 1) remaining

def nextRun (start pages : Nat) : Op Mmu (Option VirtualAddress) :=
  Op.read fun v => v.space.nextRun start pages

/-- Maps `length` bytes of zeroed memory at the first free range at or after
the page of `hint`. -/
def map (hint : VirtualAddress) (length : Nat) (writable user : Bool) :
    Call MappingError Mmu VirtualAddress := do
  let pages := pagesSpanning length
  if pages = 0 then
    throw .invalidRange
  match ← nextRun hint.page.index.val pages with
  | none => throw (.outOfVirtualSpace pages)
  | some base =>
    mapFreshPages base.page.index.val writable user 0 pages
    Call.record (.range (.mapped pages base))
    return base

def unmap (va : VirtualAddress) (length : Nat) : Call MappingError Mmu Unit := do
  if length = 0 then
    throw .invalidRange
  match checkedAdd length va.offset.toNat with
  | none => throw .invalidRange
  | some span =>
    let pages := pagesSpanning span
    (unassign va.page.index.val pages).adapt MappingError.ofPaging
    Call.record (.range (.unmapped pages va.page))

end PagedKernel.Mmu
