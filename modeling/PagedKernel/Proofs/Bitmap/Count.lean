import Mathlib.Data.Nat.Count
import PagedKernel.Proofs.Bitmap

/-! Counting the set bits of a bitmap. Words that are empty or full are not looked into, and
the sum over the words is the number of set bits all the same. -/

namespace PagedKernel.Bitmap

theorem popCountBelow_eq (w : UInt64) {k : Nat} (hk : k ≤ 64) :
    popCountBelow w k = Nat.count (fun j => w.toBitVec.getLsbD j = true) k := by
  induction k with
  | zero => rfl
  | succ k ih =>
    rw [popCountBelow, ih (by omega), Nat.count_succ, and_mask_ne_zero w (by omega)]

theorem popCount_eq (w : UInt64) :
    popCount w = Nat.count (fun j => w.toBitVec.getLsbD j = true) 64 := by
  unfold popCount
  split
  · next h =>
    subst h
    symm
    rw [Nat.count_iff_forall_not]
    intro j _
    simp
  · split
    · next h =>
      subst h
      symm
      rw [Nat.count_iff_forall]
      exact fun j hj => fillWord_bit true hj
    · exact popCountBelow_eq w (Nat.le_refl 64)

theorem count_congr {p q : Nat → Bool} {n : Nat} (h : ∀ i < n, p i = q i) :
    Nat.count (fun i => p i = true) n = Nat.count (fun i => q i = true) n :=
  Nat.le_antisymm (Nat.count_mono_left fun i hi => (h i hi ▸ id))
    (Nat.count_mono_left fun i hi => (h i hi ▸ id))

theorem foldl_popCount (ws : List UInt64) (n : Nat) :
    ws.foldl (fun n w => n + popCount w) n =
      n + Nat.count (fun i => wordsBit ws i = true) (64 * ws.length) := by
  induction ws generalizing n with
  | nil => rfl
  | cons w ws ih =>
    have hfirst : ∀ j < 64, w.toBitVec.getLsbD j = wordsBit (w :: ws) j := by
      intro j hj
      rw [wordsBit, show j / 64 = 0 by omega, show j % 64 = j by omega, List.getD_cons_zero]
    have hrest : ∀ j, wordsBit (w :: ws) (64 + j) = wordsBit ws j := by
      intro j
      rw [wordsBit, wordsBit, show (64 + j) / 64 = j / 64 + 1 by omega,
        show (64 + j) % 64 = j % 64 by omega, List.getD_cons_succ]
    rw [List.foldl_cons, List.length_cons, ih, popCount_eq, Nat.mul_succ,
      Nat.add_comm (64 * ws.length), Nat.count_add, count_congr hfirst, Nat.add_assoc]
    simp only [hrest]

variable {len : Nat}

theorem countTrue_eq (b : Bitmap len) :
    b.countTrue = Nat.count (fun i => b.stored i = true) (64 * ((len + 63) / 64)) := by
  rw [countTrue, ← Vector.foldl_toList, foldl_popCount, Nat.zero_add, Vector.length_toList]
  rfl

theorem getD_get? (b : Bitmap len) {i : Nat} (hi : i < len) :
    (b.get? i).getD false = b.stored i := by
  rw [get?_of_lt b hi, Option.getD_some, bit_eq_stored]

theorem Clean.countTrue_eq_count {b : Bitmap len} (hb : b.Clean) :
    b.countTrue = Nat.count (fun i => (b.get? i).getD false = true) len := by
  have hpadding : Nat.count (fun i => b.stored (len + i) = true)
      (64 * ((len + 63) / 64) - len) = 0 := by
    rw [Nat.count_iff_forall_not]
    intro i _
    simp only [hb (len + i) (Nat.le_add_right _ _), Bool.false_eq_true, not_false_eq_true]
  rw [countTrue_eq, show 64 * ((len + 63) / 64) = len + (64 * ((len + 63) / 64) - len) by omega,
    Nat.count_add, hpadding, Nat.add_zero]
  exact (count_congr fun i hi => getD_get? b hi).symm

theorem countTrue_eq_count (hl : len % 64 = 0) (b : Bitmap len) :
    b.countTrue = Nat.count (fun i => (b.get? i).getD false = true) len :=
  (clean_of_full hl b).countTrue_eq_count

end PagedKernel.Bitmap
