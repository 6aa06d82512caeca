import PagedKernel.Address.Virtual

/-! The two-level lookup key of a virtual address: ten bits select the
directory entry, ten bits the entry of that table, twelve bits the byte. -/

namespace PagedKernel

abbrev EntryIndex := Fin entriesPerTable

namespace EntryIndex

def ofNat (v : Nat) : Except Fault EntryIndex :=
  if h : v < entriesPerTable then .ok ⟨v, h⟩ else .error .entryIndex

theorem ofNat_eq_ok {v : Nat} (h : v < entriesPerTable) : ofNat v = .ok ⟨v, h⟩ := by
  simp only [ofNat, dif_pos h]

end EntryIndex

structure AddressParts where
  offset : Fin 4096
  tableIndex : EntryIndex
  directoryIndex : EntryIndex
  deriving DecidableEq

namespace AddressParts

def ofBits (bits : UInt32) : AddressParts where
  offset := ⟨bits.toNat % 4096, Nat.mod_lt _ (by decide)⟩
  tableIndex := ⟨bits.toNat / 4096 % 1024, Nat.mod_lt _ (by decide)⟩
  directoryIndex := ⟨bits.toNat / 4194304, by
    have h := bits.toNat_lt
    simp only [entriesPerTable_value]
    omega⟩

def toBits (parts : AddressParts) : UInt32 :=
  UInt32.ofNat
    (parts.offset.val + 4096 * parts.tableIndex.val + 4194304 * parts.directoryIndex.val)

theorem toBits_toNat (parts : AddressParts) :
    parts.toBits.toNat =
      parts.offset.val + 4096 * parts.tableIndex.val + 4194304 * parts.directoryIndex.val := by
  have ho := parts.offset.isLt
  have ht := parts.tableIndex.isLt
  have hd := parts.directoryIndex.isLt
  simp only [entriesPerTable_value] at ht hd
  simp only [toBits, UInt32.toNat_ofNat']
  omega

@[simp] theorem toBits_ofBits (bits : UInt32) : (ofBits bits).toBits = bits := by
  rw [← UInt32.toNat_inj, toBits_toNat]
  simp only [ofBits]
  omega

@[simp] theorem ofBits_toBits (parts : AddressParts) : ofBits parts.toBits = parts := by
  obtain ⟨offset, table, directory⟩ := parts
  have h := toBits_toNat ⟨offset, table, directory⟩
  have ho := offset.isLt
  have ht := table.isLt
  simp only [entriesPerTable_value] at h ht
  simp only [ofBits, AddressParts.mk.injEq, Fin.ext_iff]
  omega

def withOffset (parts : AddressParts) (v : Nat) : Except Fault AddressParts :=
  if h : v < 4096 then .ok { parts with offset := ⟨v, h⟩ } else .error (.fieldBounds 4095)

def withTableIndex (parts : AddressParts) (v : Nat) : Except Fault AddressParts :=
  if h : v < entriesPerTable then .ok { parts with tableIndex := ⟨v, h⟩ }
  else .error (.fieldBounds 1023)

def withDirectoryIndex (parts : AddressParts) (v : Nat) : Except Fault AddressParts :=
  if h : v < entriesPerTable then .ok { parts with directoryIndex := ⟨v, h⟩ }
  else .error (.fieldBounds 1023)

instance : Debug AddressParts where
  debug parts := Text.record "VirtualAddressParts"
    [("offset", debug parts.offset.val), ("table_index", debug parts.tableIndex.val),
      ("directory_index", debug parts.directoryIndex.val)]

end AddressParts

namespace VirtualAddress

def parts (va : VirtualAddress) : AddressParts :=
  .ofBits va.bits

def ofParts (parts : AddressParts) : VirtualAddress :=
  .ofBits parts.toBits

def directoryIndex (va : VirtualAddress) : EntryIndex :=
  va.parts.directoryIndex

def tableIndex (va : VirtualAddress) : EntryIndex :=
  va.parts.tableIndex

@[simp] theorem ofParts_parts (va : VirtualAddress) : ofParts va.parts = va := by
  simp only [ofParts, parts, AddressParts.toBits_ofBits]
  rfl

end VirtualAddress

/-- A flattened page number as directory index and table index. The quotient
passes through sixteen bits before it is checked. -/
def splitPageIndex (index : Nat) : Except Fault (EntryIndex × EntryIndex) := do
  let directory ← EntryIndex.ofNat (index / 1024 % 65536)
  let table ← EntryIndex.ofNat (index % 1024)
  return (directory, table)

theorem splitPageIndex_page (va : VirtualAddress) :
    splitPageIndex va.page.index.val = .ok (va.directoryIndex, va.tableIndex) := by
  have h := va.toNat_lt
  simp only [MemoryAddress.toNat] at h
  have hd : va.page.index.val / 1024 % 65536 = va.directoryIndex.val := by
    simp only [VirtualAddress.page, MemoryAddress.pageIndex, VirtualAddress.directoryIndex,
      VirtualAddress.parts, AddressParts.ofBits]
    omega
  have ht : va.page.index.val % 1024 = va.tableIndex.val := by
    simp only [VirtualAddress.page, MemoryAddress.pageIndex, VirtualAddress.tableIndex,
      VirtualAddress.parts, AddressParts.ofBits]
  simp only [splitPageIndex, hd, ht]
  rw [EntryIndex.ofNat_eq_ok va.directoryIndex.isLt, EntryIndex.ofNat_eq_ok va.tableIndex.isLt]
  rfl

end PagedKernel
