import PagedKernel.Address.Parts
import PagedKernel.Address.Physical

/-! Addresses as numbers: an address is its page and its offset, and the number of a page is
its place in the directory and in a table. -/

namespace PagedKernel

namespace VirtualAddress

def pageNumber (va : VirtualAddress) : Nat :=
  va.page.index.val

theorem pageNumber_lt (va : VirtualAddress) : va.pageNumber < pageCount :=
  va.page.index.isLt

theorem toNat_eq (va : VirtualAddress) : va.toNat = va.pageNumber * 4096 + va.offset.toNat :=
  va.pageIndex_mul_add_offset.symm

theorem pageNumber_eq (va : VirtualAddress) : va.pageNumber = va.toNat / 4096 := rfl

theorem offset_toNat (va : VirtualAddress) : va.offset.toNat = va.toNat % 4096 :=
  va.pageOffset_toNat

theorem directoryIndex_val (va : VirtualAddress) :
    va.directoryIndex.val = va.pageNumber / 1024 := by
  simp only [directoryIndex, parts, AddressParts.ofBits, pageNumber, page, MemoryAddress.pageIndex]
  omega

theorem tableIndex_val (va : VirtualAddress) : va.tableIndex.val = va.pageNumber % 1024 := by
  simp only [tableIndex, parts, AddressParts.ofBits, pageNumber, page, MemoryAddress.pageIndex]

theorem exists_toNat {n : Nat} (h : n < 4294967296) : ∃ va : VirtualAddress, va.toNat = n :=
  ⟨.ofBits (UInt32.ofNat n), UInt32.toNat_ofNat_of_lt' h⟩

theorem exists_moved {a b : VirtualAddress} {i : Nat} (ho : a.offset = b.offset)
    (ha : a.toNat + i < 4294967296) (hb : b.toNat + i < 4294967296) :
    ∃ (a' b' : VirtualAddress) (j : Nat), a'.toNat = a.toNat + i ∧ b'.toNat = b.toNat + i ∧
      j = (b.offset.toNat + i) / 4096 ∧ a'.pageNumber = a.pageNumber + j ∧
      b'.pageNumber = b.pageNumber + j ∧ a'.offset = b'.offset := by
  obtain ⟨a', ha'⟩ := exists_toNat ha
  obtain ⟨b', hb'⟩ := exists_toNat hb
  have hoffset : a.offset.toNat = b.offset.toNat := congrArg UInt32.toNat ho
  have hat := a.toNat_eq
  have hbt := b.toNat_eq
  refine ⟨a', b', _, ha', hb', rfl, ?_, ?_, ?_⟩
  · rw [pageNumber_eq, ha']
    omega
  · rw [pageNumber_eq, hb']
    omega
  · rw [← UInt32.toNat_inj, offset_toNat, offset_toNat, ha', hb']
    omega

theorem index_pageNumber (va : VirtualAddress) :
    1024 * va.directoryIndex.val + va.tableIndex.val = va.pageNumber := by
  rw [directoryIndex_val, tableIndex_val]
  exact Nat.div_add_mod _ _

end VirtualAddress

@[simp] theorem Page.base_pageNumber (p : Page) : p.base.pageNumber = p.index.val := by
  rw [VirtualAddress.pageNumber, Page.base_page]

namespace Page

theorem base_offset (p : Page) : p.base.offset = 0 := by
  rw [← UInt32.toNat_inj, VirtualAddress.offset, MemoryAddress.pageOffset_toNat, base_toNat]
  exact Nat.mul_mod_left _ _

theorem join_of_lt (p : Page) {offset : UInt32} (h : offset < 4096) :
    p.join offset = .ok (.ofBits (p.base.bits + offset)) := by
  rw [join, if_pos h]

theorem toNat_add (p : Page) {offset : UInt32} (h : offset < 4096) :
    (VirtualAddress.ofBits (p.base.bits + offset)).toNat = p.index.val * 4096 + offset.toNat := by
  have hb := p.base_toNat
  have hlt := p.index.isLt
  have ho : offset.toNat < 4096 := UInt32.lt_iff_toNat_lt.mp h
  simp only [MemoryAddress.toNat] at hb
  simp only [pageCount_value] at hlt
  simp only [VirtualAddress.ofBits, MemoryAddress.toNat, UInt32.toNat_add, hb]
  omega

theorem pageNumber_add (p : Page) {offset : UInt32} (h : offset < 4096) :
    (VirtualAddress.ofBits (p.base.bits + offset)).pageNumber = p.index.val := by
  have ho : offset.toNat < 4096 := UInt32.lt_iff_toNat_lt.mp h
  have hn := p.toNat_add h
  simp only [MemoryAddress.toNat] at hn
  simp only [VirtualAddress.pageNumber, VirtualAddress.page, MemoryAddress.pageIndex, hn]
  omega

theorem offset_add (p : Page) {offset : UInt32} (h : offset < 4096) :
    (VirtualAddress.ofBits (p.base.bits + offset)).offset = offset := by
  have ho : offset.toNat < 4096 := UInt32.lt_iff_toNat_lt.mp h
  rw [← UInt32.toNat_inj, VirtualAddress.offset, MemoryAddress.pageOffset_toNat, p.toNat_add h]
  omega

end Page

namespace Frame

theorem join_of_lt (f : Frame) {offset : UInt32} (h : offset < 4096) :
    f.join offset = .ok (.ofBits (f.base.bits + offset)) := by
  rw [join, if_pos h]

theorem frame_add (f : Frame) {offset : UInt32} (h : offset < 4096) :
    (PhysicalAddress.ofBits (f.base.bits + offset)).frame = f := by
  have hb := f.base_toNat
  have hlt := f.index.isLt
  have ho : offset.toNat < 4096 := UInt32.lt_iff_toNat_lt.mp h
  obtain ⟨index⟩ := f
  simp only [MemoryAddress.toNat] at hb
  simp only [pageCount_value] at hlt
  simp only [PhysicalAddress.ofBits, PhysicalAddress.frame, MemoryAddress.pageIndex,
    UInt32.toNat_add, hb, Frame.mk.injEq, Fin.ext_iff]
  omega

end Frame

theorem splitPageIndex_of_lt {page : Nat} (h : page < pageCount) :
    ∃ slot i : EntryIndex, splitPageIndex page = .ok (slot, i) ∧ slot.val = page / 1024 ∧
      1024 * slot.val + i.val = page := by
  simp only [pageCount_value] at h
  have hs : page / 1024 < entriesPerTable := by
    simp only [entriesPerTable_value]
    omega
  have hi : page % 1024 < entriesPerTable := Nat.mod_lt _ (by decide)
  refine ⟨⟨page / 1024, hs⟩, ⟨page % 1024, hi⟩, ?_, rfl, Nat.div_add_mod _ _⟩
  simp only [splitPageIndex, show page / 1024 % 65536 = page / 1024 by omega,
    EntryIndex.ofNat_eq_ok hs, EntryIndex.ofNat_eq_ok hi]
  rfl

end PagedKernel
