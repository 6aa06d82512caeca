import PagedKernel.Io.Backend
import PagedKernel.Range.Lending

/-! Lending buffers to an address space, as reads use it. -/

namespace PagedKernel.Mmu

def aliasMapper (source? : Option AddressSpace) : AliasMapper Mmu where
  lend := lend source?
  takeBack := takeBack

end PagedKernel.Mmu
