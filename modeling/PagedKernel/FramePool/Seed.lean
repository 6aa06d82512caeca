import PagedKernel.BootMap
import PagedKernel.FramePool.Basic
import PagedKernel.MemoryLayout

/-! Seeding the pool from the boot map. Every frame handed out is written
through the identity window, so only memory below the window's end is managed;
frame 0 and the frames of the kernel image are left out. -/

namespace PagedKernel.FramePool

/-- A pool seeded so far, with the count of usable frames left out. A frame of
several regions is counted for each of them, so the count may overflow. -/
structure Seeding where
  pool : FramePool
  unmanaged : Except Fault Nat

namespace Seeding

def floor (reservedEnd : PhysicalAddress) : Nat :=
  max (pagesSpanning reservedEnd.toNat) 1

/-- Whole frames of a region, as first index and end. -/
def frameRange (reservedEnd : PhysicalAddress) (r : Region) : Nat × Nat :=
  (max (pagesSpanning r.base) (floor reservedEnd), min (r.endClipped / pageSize) pageCount)

/-- How many frames of a region lie above the identity window. -/
def leftOut (reservedEnd : PhysicalAddress) (r : Region) : Nat :=
  (frameRange reservedEnd r).2 - max (frameRange reservedEnd r).1 MemoryLayout.kernelWindowPages

def addRegion (reservedEnd : PhysicalAddress) : Seeding → Region → Seeding
  | ⟨pool, unmanaged⟩, r =>
    let first := (frameRange reservedEnd r).1
    let managedEnd := min (frameRange reservedEnd r).2 MemoryLayout.kernelWindowPages
    ⟨if first < managedEnd then pool.releaseRange first (managedEnd - first) else pool,
      do lengthSum (← unmanaged) (leftOut reservedEnd r)⟩

/-- The pool for a boot map, keeping everything below `reservedEnd`. -/
def ofBootMap (map : BootMap) (reservedEnd : PhysicalAddress) : Seeding :=
  (BootMap.usable map).foldl (addRegion reservedEnd) ⟨.empty, .ok 0⟩

end Seeding
end PagedKernel.FramePool
