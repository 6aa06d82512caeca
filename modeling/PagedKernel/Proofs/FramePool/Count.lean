import Mathlib.Data.Set.Card
import PagedKernel.Proofs.Bitmap.Count
import PagedKernel.Proofs.FramePool

/-! How many frames a pool has available: as many as there are in the set of them. -/

namespace PagedKernel

instance : Finite Frame :=
  Finite.of_injective Frame.index fun f g h => by cases f; cases g; exact congrArg Frame.mk h

namespace FramePool

theorem available_eq_ncard (pool : FramePool) :
    pool.available = {f | pool.isAvailable f = true}.ncard := by
  have himage : (fun f : Frame => f.index.val) '' {f | pool.isAvailable f = true} =
      ((Finset.range pageCount).filter fun i => (pool.frames.get? i).getD false = true :) := by
    ext i
    simp only [Set.mem_image, Set.mem_ofPred_eq, Finset.coe_filter, Finset.mem_range]
    constructor
    · rintro ⟨f, hf, rfl⟩
      exact ⟨f.index.isLt, by rwa [Bitmap.get?_of_lt _ f.index.isLt, Option.getD_some]⟩
    · rintro ⟨hi, hbit⟩
      rw [Bitmap.get?_of_lt _ hi, Option.getD_some] at hbit
      exact ⟨⟨⟨i, hi⟩⟩, hbit, rfl⟩
  rw [available, Bitmap.countTrue_eq_count (by decide), Nat.count_eq_card_filter_range,
    ← Set.ncard_coe_finset, ← himage]
  exact Set.ncard_image_of_injective _ fun f g => index_eq_iff.mp

theorem available_le_card {pool : FramePool} {s : Finset Frame}
    (h : ∀ f, pool.isAvailable f = true → f ∈ s) : pool.available ≤ s.card := by
  rw [available_eq_ncard, ← Set.ncard_coe_finset]
  exact Set.ncard_le_ncard h s.finite_toSet

theorem available_le_of_lt {pool : FramePool} {n : Nat}
    (h : ∀ f, pool.isAvailable f = true → f.index.val < n) : pool.available ≤ n := by
  have himage : (fun f : Frame => f.index.val) '' {f | pool.isAvailable f = true} ⊆
      Finset.range n := by
    rintro - ⟨f, hf, rfl⟩
    exact Finset.mem_coe.mpr (Finset.mem_range.mpr (h f hf))
  have hrange : (Finset.range n : Set Nat).ncard = n := by
    rw [Set.ncard_coe_finset, Finset.card_range]
  rw [available_eq_ncard, ← Set.ncard_image_of_injective _ fun f g => index_eq_iff.mp]
  exact (Set.ncard_le_ncard himage (Finset.finite_toSet _)).trans_eq hrange

theorem available_eq_add_ncard {pool pool' : FramePool} {fs : Set Frame}
    (h : ∀ f, pool.isAvailable f = true ↔ pool'.isAvailable f = true ∨ f ∈ fs)
    (hf : ∀ f ∈ fs, ¬ pool'.isAvailable f = true) :
    pool.available = pool'.available + fs.ncard := by
  have hsplit : {f | pool.isAvailable f = true} = {f | pool'.isAvailable f = true} ∪ fs :=
    Set.ext h
  rw [available_eq_ncard, available_eq_ncard, hsplit, Set.ncard_union_eq]
  rw [Set.disjoint_left]
  exact fun f ha hin => hf f hin ha

end FramePool
end PagedKernel
