import PagedKernel.Bitmap.Search

/-! The bits of a bitmap. Writing changes the bits it names and no others, and a
search finds the first bit with the value, or a run whose bits all have it. -/

namespace PagedKernel.Bitmap

theorem mask_bit {k j : Nat} (hk : k < 64) (hj : j < 64) :
    (mask k).toBitVec.getLsbD j = decide (j = k) := by
  have hm : k % 18446744073709551616 % 64 = k := by omega
  simp [mask, hm, BitVec.getLsbD_one]
  grind

theorem padding_bit {k j : Nat} (hk : k < 64) :
    (mask k - 1).toBitVec.getLsbD j = decide (j < k) := by
  have hm : k % 18446744073709551616 % 64 = k := by omega
  have hp : 2 ^ k < 2 ^ 64 := Nat.pow_lt_pow_right (by omega) hk
  have hn : 0 < 2 ^ k := Nat.two_pow_pos k
  have hv : (mask k - 1).toBitVec.toNat = 2 ^ k - 1 := by
    simp [mask, hm, Nat.shiftLeft_eq]
    omega
  rw [BitVec.getLsbD, hv, Nat.testBit_two_pow_sub_one]

theorem fillWord_bit (value : Bool) {j : Nat} (hj : j < 64) :
    (fillWord value).toBitVec.getLsbD j = value := by
  cases value with
  | false => simp [fillWord]
  | true =>
    have h : (fillWord true).toBitVec = BitVec.allOnes 64 := by decide
    rw [h, BitVec.getLsbD_allOnes]
    exact decide_eq_true hj

theorem and_mask_ne_zero (w : UInt64) {k : Nat} (hk : k < 64) :
    (w &&& mask k != 0) = w.toBitVec.getLsbD k := by
  rw [Bool.eq_iff_iff, bne_iff_ne, ne_eq, ← UInt64.toBitVec_inj]
  constructor
  · intro h
    apply Classical.byContradiction
    intro hf
    apply h
    apply BitVec.eq_of_getLsbD_eq
    intro j hj
    by_cases he : j = k
    · subst he
      simp [hf]
    · simp [mask_bit hk hj, he]
  · intro h hz
    have hb := congrArg (fun v => v.getLsbD k) hz
    simp [mask_bit hk hk, h] at hb

def wordsBit (ws : List UInt64) (i : Nat) : Bool :=
  (ws.getD (i / 64) 0).toBitVec.getLsbD (i % 64)

theorem wordsBit_of_lt {ws : List UInt64} {i : Nat} (h : i / 64 < ws.length) :
    wordsBit ws i = (ws[i / 64]).toBitVec.getLsbD (i % 64) := by
  rw [wordsBit, List.getD_eq_getElem?_getD, List.getElem?_eq_getElem h, Option.getD_some]

theorem wordsBit_of_le {ws : List UInt64} {i : Nat} (h : 64 * ws.length ≤ i) :
    wordsBit ws i = false := by
  rw [wordsBit, List.getD_eq_getElem?_getD, List.getElem?_eq_none (by omega)]
  simp

theorem wordsBit_set {ws : List UInt64} {word : Nat} (w : UInt64) (h : word < ws.length) (j : Nat) :
    wordsBit (ws.set word w) j =
      if j / 64 = word then w.toBitVec.getLsbD (j % 64) else wordsBit ws j := by
  by_cases hw : word = j / 64
  · subst hw
    rw [if_pos rfl, wordsBit, List.getD_eq_getElem?_getD, List.getElem?_set_self h,
      Option.getD_some]
  · rw [if_neg (Ne.symm hw), wordsBit, List.getD_eq_getElem?_getD, List.getElem?_set_ne hw,
      ← List.getD_eq_getElem?_getD, wordsBit]

variable {len : Nat}

def stored (b : Bitmap len) (i : Nat) : Bool :=
  wordsBit b.words.toList i

theorem stored_eq (b : Bitmap len) {i : Nat} (h : i / 64 < (len + 63) / 64) :
    b.stored i = (b.words[i / 64]).toBitVec.getLsbD (i % 64) := by
  rw [stored, wordsBit_of_lt (Vector.length_toList.symm ▸ h), Vector.getElem_toList]

theorem bit_eq (b : Bitmap len) {i : Nat} (h : i < len) :
    b.bit i h = (b.words[i / 64]).toBitVec.getLsbD (i % 64) :=
  and_mask_ne_zero _ (Nat.mod_lt _ (by decide))

theorem bit_eq_stored (b : Bitmap len) {i : Nat} (h : i < len) : b.bit i h = b.stored i := by
  rw [bit_eq, stored_eq]

theorem get?_of_lt (b : Bitmap len) {i : Nat} (h : i < len) : b.get? i = some (b.bit i h) := by
  rw [get?, dif_pos h]

theorem stored_set (b : Bitmap len) {word : Nat} (w : UInt64) (h : word < (len + 63) / 64)
    (j : Nat) :
    (⟨b.words.set word w h⟩ : Bitmap len).stored j =
      if j / 64 = word then w.toBitVec.getLsbD (j % 64) else b.stored j := by
  rw [stored, Vector.toList_set, wordsBit_set w (Vector.length_toList.symm ▸ h), stored]

theorem stored_replicate (value : Bool) (j : Nat) :
    (⟨Vector.replicate _ (fillWord value)⟩ : Bitmap len).stored j =
      (decide (j / 64 < (len + 63) / 64) && value) := by
  by_cases h : j / 64 < (len + 63) / 64
  · rw [stored_eq _ h, Vector.getElem_replicate, fillWord_bit value (Nat.mod_lt _ (by decide)),
      decide_eq_true h, Bool.true_and]
  · rw [stored, wordsBit_of_le (by rw [Vector.length_toList]; omega), decide_eq_false h,
      Bool.false_and]

theorem stored_filled (value : Bool) (j : Nat) :
    (filled len value).stored j = (decide (j < len) && value) := by
  have hk : j % 64 < 64 := Nat.mod_lt _ (by decide)
  simp only [filled, clearPadding]
  split
  · next h =>
    rw [stored_set]
    split
    · next hw =>
      have hlt : j % 64 < len % 64 ↔ j < len := by omega
      rw [Vector.getElem_replicate, UInt64.toBitVec_and, BitVec.getLsbD_and,
        fillWord_bit value hk, padding_bit (Nat.mod_lt _ (by decide)), Bool.and_comm]
      simp only [hlt]
    · next hw =>
      have hlt : j / 64 < (len + 63) / 64 ↔ j < len := by omega
      simp only [stored_replicate, hlt]
  · next h =>
    have hlt : j / 64 < (len + 63) / 64 ↔ j < len := by omega
    simp only [stored_replicate, hlt]

theorem stored_write (b : Bitmap len) {i : Nat} (value : Bool) (hi : i < len) (j : Nat) :
    (b.write i value hi).stored j = if j = i then value else b.stored j := by
  have hki : i % 64 < 64 := Nat.mod_lt _ (by decide)
  have hkj : j % 64 < 64 := Nat.mod_lt _ (by decide)
  rw [write, stored_set]
  by_cases hw : j / 64 = i / 64
  · have hji : (j % 64 = i % 64) ↔ j = i := by omega
    rw [if_pos hw, stored_eq b (hw ▸ word_lt hi)]
    cases value with
    | false =>
      simp only [Bool.false_eq_true, if_false, UInt64.toBitVec_and, UInt64.toBitVec_not,
        BitVec.getLsbD_and, BitVec.getLsbD_not, mask_bit hki hkj, hji, hkj, hw]
      by_cases h : j = i <;> simp [h]
    | true =>
      simp only [if_true, UInt64.toBitVec_or, BitVec.getLsbD_or, mask_bit hki hkj, hji, hw]
      by_cases h : j = i <;> simp [h]
  · have hji : j ≠ i := fun h => hw (by rw [h])
    rw [if_neg hw, if_neg hji]

theorem stored_fillFrom (b : Bitmap len) (value : Bool) {i stop : Nat} (h : stop ≤ len)
    (j : Nat) :
    (b.fillFrom value i stop h).stored j = if i ≤ j ∧ j < stop then value else b.stored j := by
  fun_induction fillFrom b value i stop h with
  | case1 b i hi hc hw ih =>
    rw [ih, stored_set]
    by_cases hr : j / 64 = i / 64
    · rw [if_pos hr, fillWord_bit value (Nat.mod_lt _ (by decide)), if_neg (by omega),
        if_pos (by omega)]
    · rw [if_neg hr]
      by_cases ha : i + 64 ≤ j ∧ j < stop
      · rw [if_pos ha, if_pos (by omega)]
      · rw [if_neg ha, if_neg (by omega)]
  | case2 b i hi hc ih =>
    rw [ih, stored_write]
    by_cases hji : j = i
    · rw [if_neg (by omega), if_pos hji, if_pos (by omega)]
    · rw [if_neg hji]
      by_cases ha : i + 1 ≤ j ∧ j < stop
      · rw [if_pos ha, if_pos (by omega)]
      · rw [if_neg ha, if_neg (by omega)]
  | case3 b i hi => rw [if_neg (by omega)]

theorem bit_filled (value : Bool) {j : Nat} (hj : j < len) :
    (filled len value).bit j hj = value := by
  rw [bit_eq_stored, stored_filled, decide_eq_true hj, Bool.true_and]

theorem bit_write (b : Bitmap len) {i j : Nat} (value : Bool) (hi : i < len) (hj : j < len) :
    (b.write i value hi).bit j hj = if j = i then value else b.bit j hj := by
  rw [bit_eq_stored, bit_eq_stored, stored_write]

theorem bit_fillFrom (b : Bitmap len) (value : Bool) {i stop j : Nat} (h : stop ≤ len)
    (hj : j < len) :
    (b.fillFrom value i stop h).bit j hj = if i ≤ j ∧ j < stop then value else b.bit j hj := by
  rw [bit_eq_stored, bit_eq_stored, stored_fillFrom]

/-- No bit past the end is set. -/
def Clean (b : Bitmap len) : Prop :=
  ∀ i, len ≤ i → b.stored i = false

theorem clean_filled (value : Bool) : (filled len value).Clean := by
  intro i hi
  rw [stored_filled, decide_eq_false (Nat.not_lt.mpr hi), Bool.false_and]

theorem Clean.write {b : Bitmap len} (hb : b.Clean) {i : Nat} (value : Bool) (hi : i < len) :
    (b.write i value hi).Clean := by
  intro j hj
  rw [stored_write, if_neg (by omega), hb j hj]

theorem Clean.fillFrom {b : Bitmap len} (hb : b.Clean) (value : Bool) {i stop : Nat}
    (h : stop ≤ len) : (b.fillFrom value i stop h).Clean := by
  intro j hj
  rw [stored_fillFrom, if_neg (by omega), hb j hj]

theorem clean_of_full (hl : len % 64 = 0) (b : Bitmap len) : b.Clean := fun i hi =>
  wordsBit_of_le (by rw [Vector.length_toList]; omega)

theorem eq_of_stored {a b : Bitmap len} (h : ∀ i, a.stored i = b.stored i) : a = b := by
  obtain ⟨as⟩ := a
  obtain ⟨bs⟩ := b
  rw [mk.injEq]
  apply Vector.ext
  intro i hi
  rw [← UInt64.toBitVec_inj]
  apply BitVec.eq_of_getLsbD_eq
  intro k hk
  have hw : (64 * i + k) / 64 = i := by omega
  have hbit := h (64 * i + k)
  rw [stored_eq _ (by omega), stored_eq _ (by omega)] at hbit
  simpa only [hw, show (64 * i + k) % 64 = k by omega] using hbit

theorem write_again (b : Bitmap len) {i : Nat} (value : Bool) (hi : i < len) :
    (b.write i value hi).write i value hi = b.write i value hi := by
  refine eq_of_stored fun j => ?_
  simp only [stored_write]
  split <;> rfl

theorem Clean.eq_of_bits {a b : Bitmap len} (ha : a.Clean) (hb : b.Clean)
    (h : ∀ j (hj : j < len), a.bit j hj = b.bit j hj) : a = b := by
  refine eq_of_stored fun i => ?_
  by_cases hi : i < len
  · rw [← bit_eq_stored a hi, ← bit_eq_stored b hi, h i hi]
  · rw [ha i (Nat.le_of_not_lt hi), hb i (Nat.le_of_not_lt hi)]

theorem eq_of_bits {a b : Bitmap len} (hl : len % 64 = 0)
    (h : ∀ j (hj : j < len), a.bit j hj = b.bit j hj) : a = b :=
  (clean_of_full hl a).eq_of_bits (clean_of_full hl b) h

theorem bit_ne_of_word {b : Bitmap len} {value : Bool} {j : Nat} (hj : j < len)
    (hw : b.words[j / 64] = fillWord (!value)) : b.bit j hj ≠ value := by
  rw [bit_eq, hw, fillWord_bit (!value) (Nat.mod_lt _ (by decide))]
  cases value <;> decide

theorem findFrom_eq_some {b : Bitmap len} {value : Bool} {i stop : Nat} {k : Fin len}
    (h : b.findFrom value i stop = some k) :
    i ≤ k.val ∧ k.val < stop ∧ b.bit k.val k.isLt = value ∧
      ∀ j (hj : j < len), i ≤ j → j < k.val → b.bit j hj ≠ value := by
  fun_induction findFrom b value i stop with
  | case1 i hi hw hskip ih =>
    obtain ⟨hk, hs, hb, hbefore⟩ := ih h
    refine ⟨by omega, hs, hb, ?_⟩
    intro j hj hij hjk
    by_cases hlt : i + 64 ≤ j
    · exact hbefore j hj hlt hjk
    · have he : i / 64 = j / 64 := by omega
      exact bit_ne_of_word hj (by simpa only [he] using hskip.2)
  | case2 i hi hw hskip hbit =>
    cases h
    exact ⟨Nat.le_refl i, hi.1, hbit, fun j _ hij hjk => absurd hij (Nat.not_le.mpr hjk)⟩
  | case3 i hi hw hskip hbit ih =>
    obtain ⟨hk, hs, hb, hbefore⟩ := ih h
    refine ⟨by omega, hs, hb, ?_⟩
    intro j hj hij hjk
    by_cases he : j = i
    · subst he
      exact hbit
    · exact hbefore j hj (by omega) hjk
  | case4 i hi => cases h

theorem findFrom_eq_none {b : Bitmap len} {value : Bool} {i stop : Nat}
    (h : b.findFrom value i stop = none) {j : Nat} (hj : j < len) (hij : i ≤ j)
    (hjs : j < stop) : b.bit j hj ≠ value := by
  fun_induction findFrom b value i stop with
  | case1 i hi hw hskip ih =>
    by_cases hlt : i + 64 ≤ j
    · exact ih h hlt
    · have he : i / 64 = j / 64 := by omega
      exact bit_ne_of_word hj (by simpa only [he] using hskip.2)
  | case2 i hi hw hskip hbit => cases h
  | case3 i hi hw hskip hbit ih =>
    by_cases he : j = i
    · subst he
      exact hbit
    · exact ih h (by omega)
  | case4 i hi => omega

theorem runFrom_eq_some {b : Bitmap len} {value : Bool} {count start : Nat} {k : Fin len}
    (h : b.runFrom value count start = some k) :
    start ≤ k.val ∧ k.val + count ≤ len ∧
      ∀ j (hj : j < len), k.val ≤ j → j < k.val + count → b.bit j hj = value := by
  fun_induction runFrom b value count start with
  | case1 start hc => cases h
  | case2 start candidate hc hfit hb =>
    cases h
    refine ⟨(findFrom_eq_some hc).1, hfit, ?_⟩
    intro j hj hkj hjs
    have hne := findFrom_eq_none hb hj hkj hjs
    cases hv : b.bit j hj <;> cases value <;> simp_all
  | case3 start candidate hc hfit blocker hb hcandidate hblocker ih =>
    obtain ⟨hk, hrest⟩ := ih h
    exact ⟨by omega, hrest⟩
  | case4 start candidate hc hfit => cases h

theorem findRun_eq_some {b : Bitmap len} {value : Bool} {start count : Nat} {k : Fin len}
    (h : b.findRun value start count = some k) :
    start ≤ k.val ∧ k.val + count ≤ len ∧
      ∀ j (hj : j < len), k.val ≤ j → j < k.val + count → b.bit j hj = value := by
  unfold findRun at h
  split at h
  · cases h
  · exact runFrom_eq_some h

theorem exists_runFrom_le {b : Bitmap len} {value : Bool} {count start i : Nat}
    (hcount : 0 < count) (hi : start ≤ i) (hfit : i + count ≤ len)
    (hrun : ∀ j (hj : j < len), i ≤ j → j < i + count → b.bit j hj = value) :
    ∃ k, b.runFrom value count start = some k ∧ k.val ≤ i := by
  have hilt : i < len := by omega
  have hbit : b.bit i hilt = value := hrun i hilt (Nat.le_refl i) (by omega)
  have hcandidate : ∀ {start : Nat} {k : Fin len}, start ≤ i →
      b.findFrom value start len = some k → k.val ≤ i := by
    intro start k hstart hk
    obtain ⟨-, -, -, hbefore⟩ := findFrom_eq_some hk
    exact Nat.le_of_not_lt fun hlt => hbefore i hilt hstart hlt hbit
  fun_induction runFrom b value count start with
  | case1 start hc => exact absurd hbit (findFrom_eq_none hc hilt hi hilt)
  | case2 start candidate hc hfit' hb => exact ⟨candidate, rfl, hcandidate hi hc⟩
  | case3 start candidate hc hfit' blocker hb hle hle' ih =>
    have hcle := hcandidate hi hc
    obtain ⟨-, hlt, hvalue, -⟩ := findFrom_eq_some hb
    refine ih ?_
    refine Nat.lt_of_not_le fun hin => ?_
    have hsame := hrun blocker.val blocker.isLt hin (by omega)
    rw [hvalue] at hsame
    cases value <;> cases hsame
  | case4 start candidate hc hfit' =>
    have hcle := hcandidate hi hc
    omega

theorem exists_findRun_le {b : Bitmap len} {value : Bool} {start count i : Nat}
    (hcount : 0 < count) (hi : start ≤ i) (hfit : i + count ≤ len)
    (hrun : ∀ j (hj : j < len), i ≤ j → j < i + count → b.bit j hj = value) :
    ∃ k, b.findRun value start count = some k ∧ k.val ≤ i := by
  rw [findRun, if_neg (Nat.ne_of_gt hcount)]
  exact exists_runFrom_le hcount hi hfit hrun

end PagedKernel.Bitmap
