import Mathlib.Data.Nat.Bitwise

/-! Fields of a 32-bit word, read and written under a mask. A layout gives every bit of the
word to one field. A word is then what its fields hold, and a write is the one word that
differs in that field alone. -/

namespace PagedKernel

/-- A run of bits of a word. -/
structure BitField where
  low : Nat
  width : Nat
  fits : low + width ≤ 32

namespace BitField

def Has (f : BitField) (k : Nat) : Prop :=
  f.low ≤ k ∧ k < f.low + f.width

instance (f : BitField) (k : Nat) : Decidable (f.Has k) :=
  inferInstanceAs (Decidable (_ ∧ _))

def mask (f : BitField) : UInt32 :=
  .ofNat ((2 ^ f.width - 1) <<< f.low)

def read (f : BitField) (w : UInt32) : Nat :=
  (w &&& f.mask).toNat >>> f.low

def write (f : BitField) (n : Nat) (w : UInt32) : UInt32 :=
  (w &&& ~~~f.mask) ||| .ofNat (n <<< f.low)

theorem testBit_of_le (w : UInt32) {k : Nat} (h : 32 ≤ k) : w.toNat.testBit k = false :=
  Nat.testBit_lt_two_pow (Nat.lt_of_lt_of_le w.toNat_lt (Nat.pow_le_pow_right (by decide) h))

theorem testBit_not (w : UInt32) (k : Nat) :
    (~~~w).toNat.testBit k = (decide (k < 32) && !w.toNat.testBit k) := by
  rw [← UInt32.toNat_toBitVec, ← UInt32.toNat_toBitVec, BitVec.testBit_toNat,
    BitVec.testBit_toNat, UInt32.toBitVec_not, BitVec.getLsbD_not]

variable (f : BitField) {n k : Nat} (w : UInt32)

theorem shiftLeft_lt (h : n < 2 ^ f.width) : n <<< f.low < 4294967296 := by
  have hle : 2 ^ (f.low + f.width) ≤ 2 ^ 32 := Nat.pow_le_pow_right (by decide) f.fits
  calc
    n <<< f.low = n * 2 ^ f.low := Nat.shiftLeft_eq _ _
    _ < 2 ^ f.width * 2 ^ f.low := Nat.mul_lt_mul_of_pos_right h (Nat.two_pow_pos _)
    _ = 2 ^ (f.low + f.width) := by rw [← Nat.pow_add, Nat.add_comm]
    _ ≤ 4294967296 := hle

theorem testBit_mask : f.mask.toNat.testBit k = decide (f.Has k) := by
  have hn : 2 ^ f.width - 1 < 2 ^ f.width := Nat.sub_one_lt (Nat.two_pow_pos _).ne'
  rw [mask, UInt32.toNat_ofNat_of_lt' (f.shiftLeft_lt hn), Nat.testBit_shiftLeft,
    Nat.testBit_two_pow_sub_one, ← Bool.decide_and, decide_eq_decide]
  unfold Has
  omega

theorem testBit_read :
    (f.read w).testBit k = (decide (k < f.width) && w.toNat.testBit (f.low + k)) := by
  have h : f.Has (f.low + k) ↔ k < f.width := by
    unfold Has
    omega
  rw [read, Nat.testBit_shiftRight, UInt32.toNat_and, Nat.testBit_and, testBit_mask, Bool.and_comm]
  simp only [h]

theorem read_eq : f.read w = w.toNat / 2 ^ f.low % 2 ^ f.width := by
  refine Nat.eq_of_testBit_eq fun k => ?_
  rw [testBit_read, Nat.testBit_mod_two_pow, Nat.testBit_div_two_pow, Nat.add_comm]

theorem testBit_of_has (h : f.Has k) : w.toNat.testBit k = (f.read w).testBit (k - f.low) := by
  obtain ⟨hlow, hhigh⟩ := h
  rw [testBit_read, decide_eq_true (by omega), Bool.true_and, Nat.add_sub_cancel' hlow]

theorem testBit_write (h : n < 2 ^ f.width) :
    (f.write n w).toNat.testBit k =
      if f.Has k then n.testBit (k - f.low) else w.toNat.testBit k := by
  rw [write, UInt32.toNat_or, UInt32.toNat_and, Nat.testBit_or, Nat.testBit_and,
    UInt32.toNat_ofNat_of_lt' (f.shiftLeft_lt h), Nat.testBit_shiftLeft, testBit_not, testBit_mask]
  have hfits := f.fits
  by_cases hk : f.Has k
  · simp [hk, hk.1]
  rw [if_neg hk]
  by_cases hl : f.low ≤ k
  · -- past the field the number has no bits, and past the word there are none at all
    have hz : n.testBit (k - f.low) = false := by
      refine Nat.testBit_lt_two_pow (Nat.lt_of_lt_of_le h (Nat.pow_le_pow_right (by decide) ?_))
      unfold Has at hk
      omega
    by_cases hw : k < 32
    · simp [hk, hz, hw]
    · simp [hz, testBit_of_le w (Nat.le_of_not_lt hw)]
  · have hw : k < 32 := by omega
    simp [hk, hl, hw]

theorem read_write_self (h : n < 2 ^ f.width) : f.read (f.write n w) = n := by
  refine Nat.eq_of_testBit_eq fun k => ?_
  rw [testBit_read, testBit_write f w h]
  by_cases hk : k < f.width
  · have hhas : f.Has (f.low + k) := ⟨Nat.le_add_right _ _, Nat.add_lt_add_left hk _⟩
    rw [decide_eq_true hk, Bool.true_and, if_pos hhas, Nat.add_sub_cancel_left]
  · have hz : n.testBit k = false := Nat.testBit_lt_two_pow
      (Nat.lt_of_lt_of_le h (Nat.pow_le_pow_right (by decide) (Nat.le_of_not_lt hk)))
    rw [decide_eq_false hk, Bool.false_and, hz]

theorem read_write_of_apart {g : BitField} (h : n < 2 ^ f.width)
    (hg : ∀ k, g.Has k → ¬ f.Has k) : g.read (f.write n w) = g.read w := by
  refine Nat.eq_of_testBit_eq fun k => ?_
  rw [testBit_read, testBit_read, testBit_write f w h]
  by_cases hk : k < g.width
  · have hhas : g.Has (g.low + k) := ⟨Nat.le_add_right _ _, Nat.add_lt_add_left hk _⟩
    rw [if_neg (hg _ hhas)]
  · rw [decide_eq_false hk, Bool.false_and, Bool.false_and]

end BitField

/-- A word divided into fields: every bit lies in one of them, and in no other. -/
structure WordLayout (ι : Type) where
  field : ι → BitField
  /-- The field that a bit lies in. -/
  place : Nat → ι
  has_iff : ∀ i k, (field i).Has k ↔ k < 32 ∧ place k = i

namespace WordLayout

variable {ι : Type} (L : WordLayout ι) {i j : ι} {n : Nat} {w w' : UInt32}

theorem eq_of_read (h : ∀ i, (L.field i).read w = (L.field i).read w') : w = w' := by
  rw [← UInt32.toNat_inj]
  refine Nat.eq_of_testBit_eq fun k => ?_
  by_cases hk : k < 32
  · have hhas := (L.has_iff _ k).mpr ⟨hk, rfl⟩
    rw [BitField.testBit_of_has _ w hhas, BitField.testBit_of_has _ w' hhas, h]
  · have hle := Nat.le_of_not_lt hk
    rw [BitField.testBit_of_le w hle, BitField.testBit_of_le w' hle]

variable [DecidableEq ι]

theorem read_write (h : n < 2 ^ (L.field i).width) :
    (L.field j).read ((L.field i).write n w) = if j = i then n else (L.field j).read w := by
  by_cases hj : j = i
  · subst hj
    rw [if_pos rfl, BitField.read_write_self _ _ h]
  · rw [if_neg hj]
    refine BitField.read_write_of_apart _ _ h fun k hk hi => hj ?_
    exact ((L.has_iff j k).mp hk).2.symm.trans ((L.has_iff i k).mp hi).2

theorem eq_write_of_read (h : n < 2 ^ (L.field i).width)
    (hw : ∀ j, (L.field j).read w' = if j = i then n else (L.field j).read w) :
    w' = (L.field i).write n w :=
  L.eq_of_read fun j => (hw j).trans (L.read_write h).symm

theorem testBit_of_read (h : n < 2 ^ (L.field i).width)
    (hw : ∀ j, (L.field j).read w' = if j = i then n else (L.field j).read w) (k : Nat) :
    w'.toNat.testBit k =
      if (L.field i).Has k then n.testBit (k - (L.field i).low) else w.toNat.testBit k := by
  rw [L.eq_write_of_read h hw, BitField.testBit_write _ _ h]

end WordLayout
end PagedKernel
