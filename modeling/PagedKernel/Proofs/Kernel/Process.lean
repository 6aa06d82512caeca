import PagedKernel.Kernel.Process
import PagedKernel.Proofs.Space.Lifetime

/-! A new process: its space maps nothing, and hands out the pages above the kernel
window. -/

namespace PagedKernel.Process

variable {m : Machine} {gap : Prop}

def firstWords : List UInt64 :=
  List.replicate 1024 (Bitmap.fillWord false) ++ List.replicate 15360 (Bitmap.fillWord true)

theorem firstWords_length : firstWords.length = (pageCount + 63) / 64 := by
  rw [firstWords, List.length_append, List.length_replicate, List.length_replicate, pageCount_value]

def firstPages : Bitmap pageCount :=
  ⟨⟨⟨firstWords⟩, firstWords_length⟩⟩

theorem bit_firstPages {j : Nat} (hj : j < pageCount) :
    firstPages.bit j hj = decide (MemoryLayout.kernelWindowPages ≤ j) := by
  have hk : j % 64 < 64 := Nat.mod_lt _ (by decide)
  have hlt : j / 64 < firstWords.length := firstWords_length.symm ▸ Bitmap.word_lt hj
  have hword : firstWords[j / 64] =
      Bitmap.fillWord (decide (MemoryLayout.kernelWindowPages ≤ j)) := by
    have hwindow : MemoryLayout.kernelWindowPages = 64 * 1024 := rfl
    simp only [firstWords, List.getElem_append, List.length_replicate, List.getElem_replicate]
    split
    · next h => rw [decide_eq_false (by omega)]
    · next h => rw [decide_eq_true (by omega)]
  rw [Bitmap.bit_eq]
  exact (congrArg (fun w => w.toBitVec.getLsbD (j % 64)) hword).trans (Bitmap.fillWord_bit _ hk)

theorem reserveBelow_fresh (directory : Frame) :
    (AddressSpace.fresh directory).reserveBelow MemoryLayout.kernelWindowPages (by decide) =
      ⟨directory, firstPages, .replicate entriesPerTable 0⟩ := by
  have hpages : ((AddressSpace.fresh directory).reserveBelow MemoryLayout.kernelWindowPages
      (by decide)).virtualPages = firstPages := by
    refine Bitmap.eq_of_bits (by rw [pageCount_value]) fun j hj => ?_
    rw [← AddressSpace.isAvailable_of_lt _ hj, AddressSpace.isAvailable_reserveBelow,
      AddressSpace.isAvailable_fresh, bit_firstPages hj, decide_eq_true hj, Bool.true_and]
    by_cases h0 : j = 0
    · subst h0
      rfl
    · rw [decide_eq_true h0, Bool.and_true]
  rw [← hpages]
  rfl

def first (pid : ProcessId) (directory : Frame) : Process :=
  ⟨pid, ⟨directory, firstPages, .replicate entriesPerTable 0⟩, .notWaiting, none⟩

theorem create_meets (hp : m.pool.Sound)
    (hr : ∀ f, m.pool.isAvailable f = true → m.ram.installed f ∨ gap) (pid : ProcessId) :
    (create pid).Meets gap m
      (fun p m' => AddressSpace.Created m m' p.space ∧ p = first pid p.space.directory)
      fun e m' => e = .outOfFrames ∧ m' = m ∧ ∀ f, m.pool.isAvailable f = false := by
  unfold create
  refine Call.Meets.bind (AddressSpace.create_meets hp hr) ?_
  rintro space m' ⟨hc, hfresh⟩
  refine Call.pure_meets ⟨hc.reserveBelow _, ?_⟩
  rw [hfresh, reserveBelow_fresh]
  rfl

/-- Creating a process, without the steps that lay out its pages. -/
theorem create_eq (pid : ProcessId) : create pid = do
    match ← (Machine.takeFrame : Call PagingError Machine (Option Frame)) with
    | none => throw .outOfFrames
    | some directory =>
      Machine.zeroFrame directory
      Call.record (.space (.created directory))
      return first pid directory := by
  unfold create AddressSpace.create
  simp only [bind_assoc]
  refine bind_congr fun r => ?_
  cases r with
  | none => rfl
  | some directory =>
    simp only [bind_assoc, pure_bind, reserveBelow_fresh]
    rfl

end PagedKernel.Process
