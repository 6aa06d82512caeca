import PagedKernel.Proofs.FramePool.Count

/-! What a boot map seeds a pool with: the frames that lie as a whole in a usable region,
above the kernel image and inside the identity window, frame 0 apart. -/

namespace PagedKernel

def Region.saturatedEnd (r : Region) : Nat :=
  min (r.base + r.length) 18446744073709551615

/-- All of the frame lies in the region. -/
def Region.Holds (r : Region) (f : Frame) : Prop :=
  r.base ≤ pageSize * f.index.val ∧ pageSize * (f.index.val + 1) ≤ r.saturatedEnd

namespace FramePool

/-- A frame that the boot map makes available. -/
structure Seeded (map : BootMap) (reservedEnd : PhysicalAddress) (f : Frame) : Prop where
  notFirst : 1 ≤ f.index.val
  aboveImage : reservedEnd.toNat ≤ pageSize * f.index.val
  inWindow : pageSize * (f.index.val + 1) ≤ MemoryLayout.kernelWindowEnd
  usable : ∃ r ∈ map, r.isUsable = true ∧ r.Holds f

variable {map : BootMap} {reservedEnd : PhysicalAddress} {f : Frame}

theorem le_frame_iff {bytes : Nat} :
    pagesSpanning bytes ≤ f.index.val ↔ bytes ≤ pageSize * f.index.val := by
  rw [pagesSpanning_le_iff, Nat.mul_comm]
  rfl

theorem floor_le_iff : Seeding.floor reservedEnd ≤ f.index.val ↔
    reservedEnd.toNat ≤ pageSize * f.index.val ∧ 1 ≤ f.index.val := by
  rw [Seeding.floor, Nat.max_le, le_frame_iff]

theorem lt_kernelWindowPages_iff : f.index.val < MemoryLayout.kernelWindowPages ↔
    pageSize * (f.index.val + 1) ≤ MemoryLayout.kernelWindowEnd := by
  simp only [MemoryLayout.kernelWindowPages, MemoryLayout.kernelWindowEnd, pageSize]
  omega

theorem lt_endClipped_iff (r : Region) :
    f.index.val < min (r.endClipped / pageSize) pageCount ↔
      pageSize * (f.index.val + 1) ≤ r.saturatedEnd := by
  have hf := f.index.isLt
  simp only [pageCount] at hf
  simp only [Region.endClipped, Region.saturatedEnd, pageSize, pageCount]
  omega

theorem offers_iff (r : Region) : Seeding.Offers reservedEnd r f ↔
    1 ≤ f.index.val ∧ reservedEnd.toNat ≤ pageSize * f.index.val ∧
      pageSize * (f.index.val + 1) ≤ MemoryLayout.kernelWindowEnd ∧ r.Holds f := by
  rw [Seeding.Offers, Seeding.frameRange, Nat.max_le, le_frame_iff, floor_le_iff, Nat.lt_min,
    lt_endClipped_iff, lt_kernelWindowPages_iff, Region.Holds]
  tauto

theorem isAvailable_iff_seeded : (Seeding.ofBootMap map reservedEnd).pool.isAvailable f = true ↔
    Seeded map reservedEnd f := by
  rw [Seeding.isAvailable_ofBootMap]
  constructor
  · rintro ⟨r, hr, hoffers⟩
    obtain ⟨hmem, husable⟩ := List.mem_filter.mp hr
    obtain ⟨hfirst, himage, hwindow, hholds⟩ := (offers_iff r).mp hoffers
    exact ⟨hfirst, himage, hwindow, r, hmem, husable, hholds⟩
  · rintro ⟨hfirst, himage, hwindow, r, hmem, husable, hholds⟩
    exact ⟨r, List.mem_filter.mpr ⟨hmem, husable⟩,
      (offers_iff r).mpr ⟨hfirst, himage, hwindow, hholds⟩⟩

/-- A boot map makes the frames it should available, they are counted right, and the first
frame taken is the least of them. -/
theorem seeding_exact (map : BootMap) (reservedEnd : PhysicalAddress) :
    let pool := (Seeding.ofBootMap map reservedEnd).pool
    (∀ f, pool.isAvailable f = true ↔ Seeded map reservedEnd f) ∧
      pool.available = {f | Seeded map reservedEnd f}.ncard ∧
      (∀ f, pool.alloc.1 = some f ↔ Seeded map reservedEnd f ∧
        ∀ g, Seeded map reservedEnd g → f.index ≤ g.index) ∧
      (pool.alloc.1 = none ↔ ∀ f, ¬ Seeded map reservedEnd f) := by
  have hs := ofBootMap_sound map reservedEnd
  refine ⟨fun f => isAvailable_iff_seeded, ?_, fun f => ?_, ?_⟩
  · simp only [available_eq_ncard, isAvailable_iff_seeded]
  · simp only [alloc_eq_some_iff hs, isAvailable_iff_seeded, Fin.le_def]
  · simp only [alloc_eq_none_iff hs, ← isAvailable_iff_seeded, Bool.not_eq_true]

end FramePool
end PagedKernel
