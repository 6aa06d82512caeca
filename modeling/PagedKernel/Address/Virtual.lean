import PagedKernel.Address.Basic

/-! Virtual addresses and virtual pages. A page is known by its number; its
base is the number times the page size. -/

namespace PagedKernel

structure VirtualAddress extends MemoryAddress where
  deriving DecidableEq

/-- A page of virtual memory, by number. -/
structure Page where
  index : Fin pageCount
  deriving DecidableEq

namespace VirtualAddress

def ofBits (bits : UInt32) : VirtualAddress := ⟨⟨bits⟩⟩

def zero : VirtualAddress := ofBits 0

instance : Inhabited VirtualAddress := ⟨zero⟩

def isNull (va : VirtualAddress) : Bool :=
  va.bits == 0

def page (va : VirtualAddress) : Page :=
  ⟨⟨va.pageIndex, va.pageIndex_lt⟩⟩

def offset (va : VirtualAddress) : UInt32 :=
  va.pageOffset

theorem offset_lt (va : VirtualAddress) : va.offset < 4096 := by
  rw [UInt32.lt_iff_toNat_lt]
  simp only [offset, MemoryAddress.pageOffset_toNat]
  exact Nat.mod_lt _ (by decide)

def split (va : VirtualAddress) : Page × UInt32 :=
  (va.page, va.offset)

def checkedAdd (va : VirtualAddress) (rhs : UInt32) : Option VirtualAddress :=
  (va.toMemoryAddress.checkedAdd rhs).map (⟨·⟩)

def add (va : VirtualAddress) (rhs : UInt32) : Except Fault VirtualAddress :=
  (va.toMemoryAddress.add rhs).map (⟨·⟩)

def max (a b : VirtualAddress) : VirtualAddress :=
  if a.bits ≤ b.bits then b else a

instance : ToString VirtualAddress where
  toString va := toString va.toMemoryAddress

instance : Debug VirtualAddress where
  debug va := Text.tuple "VA" [toString va]

end VirtualAddress

namespace Page

def ofIndex (index : Nat) : Except Fault Page :=
  if h : index < pageCount then .ok ⟨⟨index, h⟩⟩ else .error .pageIndex

theorem ofIndex_eq_ok {index : Nat} (h : index < pageCount) :
    ofIndex index = .ok ⟨⟨index, h⟩⟩ := by
  simp only [ofIndex, dif_pos h]

def base (p : Page) : VirtualAddress :=
  .ofBits (UInt32.ofNat (p.index.val * 4096))

theorem base_toNat (p : Page) : p.base.toNat = p.index.val * 4096 := by
  have h := p.index.isLt
  simp only [pageCount_value] at h
  simp only [base, VirtualAddress.ofBits, MemoryAddress.toNat, UInt32.toNat_ofNat']
  omega

@[simp] theorem base_page (p : Page) : p.base.page = p := by
  have h := p.base_toNat
  simp only [MemoryAddress.toNat] at h
  cases p
  simp only [VirtualAddress.page, MemoryAddress.pageIndex, h, Page.mk.injEq, Fin.ext_iff]
  omega

/-- The address at an offset into the page; an offset past its end is a fault. -/
def join (p : Page) (offset : UInt32) : Except Fault VirtualAddress :=
  if offset < 4096 then .ok (.ofBits (p.base.bits + offset)) else .error .pageOffset

theorem join_page_offset (va : VirtualAddress) : va.page.join va.offset = .ok va := by
  rw [join, if_pos va.offset_lt]
  congr 1
  have hb := va.page.base_toNat
  have hs := va.pageIndex_mul_add_offset
  have hl := va.toNat_lt
  obtain ⟨⟨bits⟩⟩ := va
  simp only [VirtualAddress.ofBits, VirtualAddress.mk.injEq, MemoryAddress.mk.injEq,
    ← UInt32.toNat_inj, UInt32.toNat_add]
  simp only [MemoryAddress.toNat, VirtualAddress.page, VirtualAddress.offset] at hb hs hl ⊢
  rw [hb]
  omega

instance : ToString Page where
  toString p := toString p.base

instance : Debug Page where
  debug p := Text.tuple "VirtualPage" [toString p]

end Page
end PagedKernel
