import PagedKernel.Range.Arithmetic
import PagedKernel.Space.Mapping

/-! Identity maps: pages that borrow the frame of their own number. Page 0 is
left out, and so are pages that map their own frame already. -/

namespace PagedKernel.Mmu

/-- The first page, among `n` from `i`, that maps a frame other than its own. -/
def firstConflict (i : Nat) : Nat → Op Mmu (Option Page)
  | 0 => return none
  | n + 1 => do
    let page ← Page.ofIndex i
    let mapped ← entry page.base
    if mapped.isPresent && mapped.frame != ⟨page.index⟩ then return some page
    else firstConflict (i + 1) n

/-- Maps the absent pages, among `n` from `i`, and counts them. -/
def mapIdentityPages (writable : Bool) (mapped i : Nat) : Nat → Call MappingError Mmu Nat
  | 0 => return mapped
  | n + 1 => do
    let page ← Page.ofIndex i
    if (← entry page.base).isPresent then mapIdentityPages writable mapped (i + 1) n
    else
      let frame ← Frame.ofIndex i
      (assignBorrowed frame.base page.base writable).adapt MappingError.ofPaging
      mapIdentityPages writable (← lengthSum mapped 1) (i + 1) n

/-- The pages of an identity map, as first page and end. The range is cut at
the end of the address space. -/
def identityPages (pa : PhysicalAddress) (size : Nat) : Nat × Nat :=
  (max pa.pageIndex 1, min (pa.pageIndex + pagesTouched pa.toMemoryAddress size) pageCount)

/-- Identity-maps the frames that cover `size` bytes from an address and counts
the new pages. A conflicting page is found before anything is mapped. -/
def mapIdentity (pa : PhysicalAddress) (size : Nat) (writable : Bool) :
    Call MappingError Mmu Nat := do
  let first := (identityPages pa size).1
  let count := (identityPages pa size).2 - first
  if let some page := ← firstConflict first count then
    throw (.ofPaging (.alreadyMapped page.base))
  let mapped ← mapIdentityPages writable 0 first count
  Call.record (.range (.identityMapped mapped pa))
  return mapped

end PagedKernel.Mmu
