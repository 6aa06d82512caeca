import PagedKernel.Address.Virtual

/-! How the 32-bit address space is divided. The kernel identity-maps the low
window; processes allocate above it. In the kernel's own space the range
between the low window and the device window holds the buffers that reads in
flight borrow. -/

namespace PagedKernel.MemoryLayout

/-- End of the identity-mapped low window, not itself part of it. -/
def kernelWindowEnd : Nat := 268435456

def userBase : Nat := kernelWindowEnd

def kernelWindowPages : Nat := 65536

def imageStart : Nat := 1048576

/-- Start of the device memory that is identity-mapped on request. -/
def deviceWindowStart : Nat := 4026531840

/-- Start of the range that user buffers are lent into. -/
def aliasWindowStart : Nat := userBase

def aliasWindowEnd : Nat := deviceWindowStart

def userBaseAddress : VirtualAddress :=
  .ofBits (UInt32.ofNat userBase)

theorem kernelWindowPages_value : kernelWindowPages * pageSize = kernelWindowEnd := rfl

theorem kernelWindowEnd_le_aliasWindowStart : kernelWindowEnd ≤ aliasWindowStart := by decide

theorem aliasWindowEnd_le_deviceWindowStart : aliasWindowEnd ≤ deviceWindowStart := by decide

end PagedKernel.MemoryLayout
