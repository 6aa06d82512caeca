import PagedKernel.Address.Physical
import PagedKernel.Range.Arithmetic

/-! The memory map handed over at boot: regions of physical memory, each with
a classification. Only usable regions seed the frame pool. -/

namespace PagedKernel

inductive RegionKind where
  | usable
  | reserved
  | acpiReclaimable
  | acpiNvs
  | badMemory
  deriving DecidableEq

namespace RegionKind

/-- The classification with a firmware number; unknown numbers count as reserved. -/
def ofNumber : Nat → RegionKind
  | 1 => usable
  | 3 => acpiReclaimable
  | 4 => acpiNvs
  | 5 => badMemory
  | _ => reserved

def number : RegionKind → Nat
  | usable => 1
  | reserved => 2
  | acpiReclaimable => 3
  | acpiNvs => 4
  | badMemory => 5

@[simp] theorem ofNumber_number (kind : RegionKind) : ofNumber kind.number = kind := by
  cases kind <;> rfl

instance : Debug RegionKind where
  debug
    | usable => "Usable"
    | reserved => "Reserved"
    | acpiReclaimable => "AcpiReclaimable"
    | acpiNvs => "AcpiNvs"
    | badMemory => "BadMemory"

end RegionKind

/-- A region of physical memory. Firmware reports regions above 4 GiB, so base
and length have 64 bits. -/
structure Region where
  base : Nat
  length : Nat
  kind : RegionKind

namespace Region

def isUsable (r : Region) : Bool :=
  r.kind == .usable

def start (r : Region) : Option PhysicalAddress :=
  if r.base < 4294967296 then some (.ofBits (UInt32.ofNat r.base)) else none

def endClipped (r : Region) : Nat :=
  min (r.base + r.length) 4294967296

def size (r : Region) : Nat :=
  r.endClipped - min r.base 4294967296

end Region

abbrev BootMap := List Region

namespace BootMap

def usable (map : BootMap) : List Region :=
  map.filter Region.isUsable

def usableBytes (map : BootMap) : Except Fault Nat :=
  lengthTotal ((usable map).map Region.size)

end BootMap
end PagedKernel
