import Mathlib.Data.Set.Function
import Mathlib.Order.Interval.Set.Defs
import PagedKernel.Proofs.Address
import PagedKernel.Proofs.BitField

/-! Taking an address apart. Masks and a shift, the fields of the word, and quotients and
remainders of a page number all come to the same page, offset and pair of indices. -/

namespace PagedKernel

/-- The page arithmetic on an address, done by masks and a shift. -/
structure MemoryAddress.CutByMasks (a : MemoryAddress) : Prop where
  base : a.alignDown.bits = a.bits &&& ~~~4095
  offset : a.pageOffset = a.bits &&& 4095
  index : a.pageIndex = (a.bits >>> 12).toNat
  joined : a.alignDown.bits ||| a.pageOffset = a.bits

structure MemoryAddress.IsBaseOf (a : MemoryAddress) (n : Nat) : Prop where
  base : a.toNat = pageSize * n
  index : a.pageIndex = n

namespace MemoryAddress

theorem eq_of_toNat {a b : MemoryAddress} (h : a.toNat = b.toNat) : a = b :=
  congrArg MemoryAddress.mk (UInt32.toNat_inj.mp h)

theorem isBaseOf {a : MemoryAddress} {n : Nat} (h : a.toNat = n * 4096) : a.IsBaseOf n where
  base := h.trans (Nat.mul_comm _ _)
  index := by
    rw [toNat] at h
    rw [pageIndex, h, Nat.mul_div_cancel _ (by decide)]

variable (a : MemoryAddress)

theorem pageOffset_eq_mask : a.pageOffset = a.bits &&& 4095 := by
  rw [← UInt32.toNat_inj, pageOffset_toNat, UInt32.toNat_and]
  exact (Nat.and_two_pow_sub_one_eq_mod _ 12).symm

theorem pageIndex_eq_shift : a.pageIndex = (a.bits >>> 12).toNat := by
  rw [UInt32.toNat_shiftRight]
  exact (Nat.shiftRight_eq_div_pow _ 12).symm

theorem alignDown_toNat : a.alignDown.toNat = a.pageIndex * 4096 := by
  have h := a.pageIndex_mul_add_offset
  have hle : a.bits % 4096 ≤ a.bits := by
    rw [UInt32.le_iff_toNat_le, UInt32.toNat_mod]
    exact Nat.mod_le _ _
  simp only [alignDown, toNat, UInt32.toNat_sub_of_le _ _ hle] at h ⊢
  exact Nat.sub_eq_of_eq_add h.symm

theorem alignDown_eq_mask : a.alignDown.bits = a.bits &&& ~~~4095 := by
  have h : a.alignDown.bits.toNat = a.bits.toNat / 2 ^ 12 * 2 ^ 12 := a.alignDown_toNat
  rw [← UInt32.toNat_inj, h, UInt32.toNat_and]
  refine Nat.eq_of_testBit_eq fun k => ?_
  rw [Nat.testBit_mul_two_pow, Nat.testBit_div_two_pow, Nat.testBit_and, BitField.testBit_not,
    show (4095 : UInt32).toNat = 2 ^ 12 - 1 from rfl, Nat.testBit_two_pow_sub_one]
  by_cases hk : 12 ≤ k
  · rw [Nat.sub_add_cancel hk]
    by_cases hw : k < 32
    · simp [hk, hw]
    · simp [BitField.testBit_of_le a.bits (Nat.le_of_not_lt hw)]
  · simp [hk, Nat.lt_of_not_le hk]

theorem alignDown_or_pageOffset : a.alignDown.bits ||| a.pageOffset = a.bits := by
  rw [alignDown_eq_mask, pageOffset_eq_mask]
  generalize (4095 : UInt32) = mask
  rw [← UInt32.toBitVec_inj]
  ext k hk
  simp only [UInt32.toBitVec_or, UInt32.toBitVec_and, UInt32.toBitVec_not, BitVec.getElem_or,
    BitVec.getElem_and, BitVec.getElem_not]
  cases a.bits.toBitVec[k] <;> cases mask.toBitVec[k] <;> rfl

theorem cutByMasks : a.CutByMasks where
  base := a.alignDown_eq_mask
  offset := a.pageOffset_eq_mask
  index := a.pageIndex_eq_shift
  joined := a.alignDown_or_pageOffset

end MemoryAddress

inductive AddressField where
  | offset
  | tableIndex
  | directoryIndex
  deriving DecidableEq

def AddressField.layout : WordLayout AddressField where
  field
    | .offset => ⟨0, 12, by decide⟩
    | .tableIndex => ⟨12, 10, by decide⟩
    | .directoryIndex => ⟨22, 10, by decide⟩
  place k := if k < 12 then .offset else if k < 22 then .tableIndex else .directoryIndex
  has_iff i k := by cases i <;> grind [BitField.Has]

namespace AddressParts

variable (parts : AddressParts) (i : AddressField) (w : UInt32) {n : Nat}

def field : AddressField → Nat
  | .offset => parts.offset.val
  | .tableIndex => parts.tableIndex.val
  | .directoryIndex => parts.directoryIndex.val

def replace (n : Nat) : AddressField → Except Fault AddressParts
  | .offset => parts.withOffset n
  | .tableIndex => parts.withTableIndex n
  | .directoryIndex => parts.withDirectoryIndex n

/-- What replacing a field comes to, in the fields and in the word. -/
structure Replaced (old new : AddressParts) (i : AddressField) (n : Nat) : Prop where
  field : new.field i = n
  others : ∀ j, j ≠ i → new.field j = old.field j
  bits : ∀ k, new.toBits.toNat.testBit k =
    if (AddressField.layout.field i).Has k then n.testBit (k - (AddressField.layout.field i).low)
    else old.toBits.toNat.testBit k

theorem field_ofBits : (ofBits w).field i = (AddressField.layout.field i).read w := by
  rw [BitField.read_eq]
  cases i with
  | offset =>
    simp only [field, ofBits, AddressField.layout, Nat.pow_zero, Nat.div_one, Nat.reducePow]
  | tableIndex => rfl
  | directoryIndex =>
    have h := w.toNat_lt
    simp only [field, ofBits, AddressField.layout]
    omega

theorem read_toBits : (AddressField.layout.field i).read parts.toBits = parts.field i := by
  rw [← field_ofBits, ofBits_toBits]

theorem exists_replace (h : n < 2 ^ (AddressField.layout.field i).width) :
    ∃ new, parts.replace n i = .ok new ∧
      ∀ j, new.field j = if j = i then n else parts.field j := by
  cases i with
  | offset => exact ⟨_, dif_pos h, fun j => by cases j <;> rfl⟩
  | tableIndex => exact ⟨_, dif_pos h, fun j => by cases j <;> rfl⟩
  | directoryIndex => exact ⟨_, dif_pos h, fun j => by cases j <;> rfl⟩

theorem exists_replaced (h : n < 2 ^ (AddressField.layout.field i).width) :
    ∃ new, parts.replace n i = .ok new ∧ parts.Replaced new i n := by
  obtain ⟨new, hnew, hfields⟩ := parts.exists_replace i h
  have hread : ∀ j, (AddressField.layout.field j).read new.toBits =
      if j = i then n else (AddressField.layout.field j).read parts.toBits := fun j => by
    rw [read_toBits, read_toBits, hfields]
  refine ⟨new, hnew, ?_, fun j hj => ?_, AddressField.layout.testBit_of_read h hread⟩
  · rw [hfields, if_pos rfl]
  · rw [hfields, if_neg hj]

end AddressParts

theorem splitPageIndex_indices (slot i : EntryIndex) :
    1024 * slot.val + i.val < pageCount ∧
      splitPageIndex (1024 * slot.val + i.val) = .ok (slot, i) := by
  have hs := slot.isLt
  have hi := i.isLt
  simp only [entriesPerTable_value] at hs hi
  have h : 1024 * slot.val + i.val < pageCount := by
    simp only [pageCount_value]
    omega
  obtain ⟨slot', i', hsplit, hslot, hindex⟩ := splitPageIndex_of_lt h
  have hsame : slot' = slot ∧ i' = i := by
    simp only [Fin.ext_iff]
    omega
  exact ⟨h, by rw [hsplit, hsame.1, hsame.2]⟩

theorem splitPageIndex_bijOn :
    Set.BijOn splitPageIndex (Set.Iio pageCount) (Set.range .ok) := by
  refine ⟨fun index h => ?_, fun index h index' h' heq => ?_, ?_⟩
  · obtain ⟨slot, i, hsplit, -⟩ := splitPageIndex_of_lt h
    exact ⟨(slot, i), hsplit.symm⟩
  · obtain ⟨slot, i, hsplit, -, hindex⟩ := splitPageIndex_of_lt h
    obtain ⟨slot', i', hsplit', -, hindex'⟩ := splitPageIndex_of_lt h'
    rw [hsplit, hsplit'] at heq
    cases heq
    exact hindex.symm.trans hindex'
  · rintro _ ⟨⟨slot, i⟩, rfl⟩
    exact ⟨_, splitPageIndex_indices slot i⟩

/-- All ways to take a virtual address apart come to the same. -/
structure VirtualAddress.Coherent (va : VirtualAddress) : Prop where
  masks : va.toMemoryAddress.CutByMasks
  base : va.page.base.toMemoryAddress = va.alignDown
  indices : splitPageIndex va.page.index.val = .ok (va.directoryIndex, va.tableIndex)
  index : va.page.index.val = va.directoryIndex.val * entriesPerTable + va.tableIndex.val
  joined : va.page.join va.offset = .ok va
  parts : VirtualAddress.ofParts va.parts = va
  offset : va.offset.toNat = va.parts.offset.val
  fields : ∀ i, va.parts.field i = (AddressField.layout.field i).read va.bits

structure PhysicalAddress.Coherent (pa : PhysicalAddress) : Prop where
  masks : pa.toMemoryAddress.CutByMasks
  base : pa.frame.base.toMemoryAddress = pa.alignDown
  joined : pa.frame.join pa.offset = .ok pa

theorem VirtualAddress.coherent (va : VirtualAddress) : va.Coherent where
  masks := va.cutByMasks
  base := MemoryAddress.eq_of_toNat (va.page.base_toNat.trans va.alignDown_toNat.symm)
  indices := splitPageIndex_page va
  index := by
    have h := va.index_pageNumber
    rw [Nat.mul_comm] at h
    exact h.symm
  joined := Page.join_page_offset va
  parts := ofParts_parts va
  offset := va.pageOffset_toNat
  fields i := AddressParts.field_ofBits i va.bits

theorem PhysicalAddress.coherent (pa : PhysicalAddress) : pa.Coherent where
  masks := pa.cutByMasks
  base := MemoryAddress.eq_of_toNat (pa.frame.base_toNat.trans pa.alignDown_toNat.symm)
  joined := Frame.join_frame_offset pa

/-- Page, offset and indices of an address are the same by masks, by fields and by arithmetic on
the page number; a page number gives the page and the frame it counts, and divides into indices
as no other does; and a field of an address is replaced without a trace in the others. -/
theorem decompositions_agree :
    (∀ va : VirtualAddress, va.Coherent) ∧ (∀ pa : PhysicalAddress, pa.Coherent) ∧
      (∀ index : Fin pageCount,
        (∃ p, Page.ofIndex index.val = .ok p ∧ p.index = index ∧ p.base.IsBaseOf index.val) ∧
          ∃ f, Frame.ofIndex index.val = .ok f ∧ f.index = index ∧ f.base.IsBaseOf index.val) ∧
      Set.BijOn splitPageIndex (Set.Iio pageCount) (Set.range .ok) ∧
      ∀ (parts : AddressParts) (i : AddressField)
        (n : Fin (2 ^ (AddressField.layout.field i).width)),
        ∃ new, parts.replace n.val i = .ok new ∧ parts.Replaced new i n.val := by
  refine ⟨VirtualAddress.coherent, PhysicalAddress.coherent, fun index => ⟨?_, ?_⟩,
    splitPageIndex_bijOn, fun parts i n => parts.exists_replaced i n.isLt⟩
  · have hbase := MemoryAddress.isBaseOf (Page.mk index).base_toNat
    exact ⟨_, Page.ofIndex_eq_ok index.isLt, rfl, hbase⟩
  · have hbase := MemoryAddress.isBaseOf (Frame.mk index).base_toNat
    exact ⟨_, Frame.ofIndex_eq_ok index.isLt, rfl, hbase⟩

example :
    let va := VirtualAddress.ofBits 0x00403123
    (va.directoryIndex.val, va.tableIndex.val, va.offset) = (1, 3, 0x123) := by
  decide

end PagedKernel
