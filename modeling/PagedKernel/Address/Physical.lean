import PagedKernel.Address.Basic

/-! Physical addresses and frames. A frame is a page of physical memory; its
number is what page-table entries store. -/

namespace PagedKernel

structure PhysicalAddress extends MemoryAddress where
  deriving DecidableEq

/-- A page of physical memory, by number. -/
structure Frame where
  index : Fin pageCount
  deriving DecidableEq

namespace PhysicalAddress

def ofBits (bits : UInt32) : PhysicalAddress := ⟨⟨bits⟩⟩

def zero : PhysicalAddress := ofBits 0

instance : Inhabited PhysicalAddress := ⟨zero⟩

def frame (pa : PhysicalAddress) : Frame :=
  ⟨⟨pa.pageIndex, pa.pageIndex_lt⟩⟩

def offset (pa : PhysicalAddress) : UInt32 :=
  pa.pageOffset

theorem offset_lt (pa : PhysicalAddress) : pa.offset < 4096 := by
  rw [UInt32.lt_iff_toNat_lt]
  simp only [offset, MemoryAddress.pageOffset_toNat]
  exact Nat.mod_lt _ (by decide)

def split (pa : PhysicalAddress) : Frame × UInt32 :=
  (pa.frame, pa.offset)

def add (pa : PhysicalAddress) (rhs : UInt32) : Except Fault PhysicalAddress :=
  (pa.toMemoryAddress.add rhs).map (⟨·⟩)

instance : ToString PhysicalAddress where
  toString pa := toString pa.toMemoryAddress

instance : Debug PhysicalAddress where
  debug pa := Text.tuple "PA" [toString pa]

end PhysicalAddress

namespace Frame

instance : Inhabited Frame := ⟨⟨⟨0, pageCount_pos⟩⟩⟩

def ofIndex (index : Nat) : Except Fault Frame :=
  if h : index < pageCount then .ok ⟨⟨index, h⟩⟩ else .error .pageIndex

theorem ofIndex_eq_ok {index : Nat} (h : index < pageCount) :
    ofIndex index = .ok ⟨⟨index, h⟩⟩ := by
  simp only [ofIndex, dif_pos h]

def base (f : Frame) : PhysicalAddress :=
  .ofBits (UInt32.ofNat (f.index.val * 4096))

theorem base_toNat (f : Frame) : f.base.toNat = f.index.val * 4096 := by
  have h := f.index.isLt
  simp only [pageCount_value] at h
  simp only [base, PhysicalAddress.ofBits, MemoryAddress.toNat, UInt32.toNat_ofNat']
  omega

@[simp] theorem base_frame (f : Frame) : f.base.frame = f := by
  have h := f.base_toNat
  simp only [MemoryAddress.toNat] at h
  cases f
  simp only [PhysicalAddress.frame, MemoryAddress.pageIndex, h, Frame.mk.injEq, Fin.ext_iff]
  omega

def join (f : Frame) (offset : UInt32) : Except Fault PhysicalAddress :=
  if offset < 4096 then .ok (.ofBits (f.base.bits + offset)) else .error .pageOffset

theorem join_frame_offset (pa : PhysicalAddress) : pa.frame.join pa.offset = .ok pa := by
  rw [join, if_pos pa.offset_lt]
  congr 1
  have hb := pa.frame.base_toNat
  have hs := pa.pageIndex_mul_add_offset
  have hl := pa.toNat_lt
  obtain ⟨⟨bits⟩⟩ := pa
  simp only [PhysicalAddress.ofBits, PhysicalAddress.mk.injEq, MemoryAddress.mk.injEq,
    ← UInt32.toNat_inj, UInt32.toNat_add]
  simp only [MemoryAddress.toNat, PhysicalAddress.frame, PhysicalAddress.offset] at hb hs hl ⊢
  rw [hb]
  omega

instance : ToString Frame where
  toString f := toString f.base

instance : Debug Frame where
  debug f := Text.tuple "PhysicalPage" [toString f]

end Frame
end PagedKernel
