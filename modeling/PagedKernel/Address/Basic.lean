import PagedKernel.Fault
import PagedKernel.Text.Debug

/-! Raw 32-bit addresses and the page arithmetic on them. A page has 4096
bytes, so an address is a page number (the upper twenty bits) and an offset
(the lower twelve). -/

namespace PagedKernel

def pageSize : Nat := 4096

def pageShift : Nat := 12

def entriesPerTable : Nat := 1024

def pageCount : Nat := 1048576

@[simp] theorem pageSize_value : pageSize = 4096 := rfl

@[simp] theorem entriesPerTable_value : entriesPerTable = 1024 := rfl

@[simp] theorem pageCount_value : pageCount = 1048576 := rfl

theorem pageCount_pos : 0 < pageCount := by decide

/-- Pages needed for `bytes` bytes that start at a page boundary. -/
def pagesSpanning (bytes : Nat) : Nat :=
  (bytes + 4095) / 4096

theorem pagesSpanning_le_iff {bytes pages : Nat} :
    pagesSpanning bytes ≤ pages ↔ bytes ≤ pages * 4096 := by
  rw [pagesSpanning]
  omega

theorem pagesSpanning_eq_zero_iff {bytes : Nat} : pagesSpanning bytes = 0 ↔ bytes = 0 := by
  rw [pagesSpanning]
  omega

structure MemoryAddress where
  bits : UInt32
  deriving DecidableEq

namespace MemoryAddress

instance : Inhabited MemoryAddress := ⟨⟨0⟩⟩

def toNat (a : MemoryAddress) : Nat :=
  a.bits.toNat

theorem toNat_lt (a : MemoryAddress) : a.toNat < 4294967296 :=
  a.bits.toNat_lt

def alignDown (a : MemoryAddress) : MemoryAddress :=
  ⟨a.bits - a.bits % 4096⟩

def pageOffset (a : MemoryAddress) : UInt32 :=
  a.bits % 4096

theorem pageOffset_toNat (a : MemoryAddress) : a.pageOffset.toNat = a.toNat % 4096 := by
  simp [pageOffset, toNat]

def pageIndex (a : MemoryAddress) : Nat :=
  a.bits.toNat / 4096

theorem pageIndex_lt (a : MemoryAddress) : a.pageIndex < pageCount := by
  have h := a.toNat_lt
  simp only [toNat] at h
  simp only [pageIndex, pageCount_value]
  omega

theorem pageIndex_mul_add_offset (a : MemoryAddress) :
    a.pageIndex * 4096 + a.pageOffset.toNat = a.toNat := by
  rw [pageOffset_toNat]
  simp only [pageIndex, toNat]
  omega

def checkedAdd (a : MemoryAddress) (rhs : UInt32) : Option MemoryAddress :=
  if a.bits.toNat + rhs.toNat < 4294967296 then some ⟨a.bits + rhs⟩ else none

/-- The sum; leaving the address space is a fault. -/
def add (a : MemoryAddress) (rhs : UInt32) : Except Fault MemoryAddress :=
  match a.checkedAdd rhs with
  | some sum => .ok sum
  | none => .error .addOverflow

theorem checkedAdd_toNat {a b : MemoryAddress} {rhs : UInt32}
    (h : a.checkedAdd rhs = some b) : b.toNat = a.toNat + rhs.toNat := by
  unfold checkedAdd at h
  split at h
  · next bound =>
    cases h
    simp only [toNat, UInt32.toNat_add]
    omega
  · cases h

instance : ToString MemoryAddress where
  toString a := Text.hexWord a.bits

instance : Debug MemoryAddress where
  debug a := Text.tuple "MemoryAddress" [toString a]

end MemoryAddress
end PagedKernel
