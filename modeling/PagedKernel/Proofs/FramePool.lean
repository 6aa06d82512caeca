import PagedKernel.FramePool.Seed
import PagedKernel.Proofs.Bitmap

/-! Which frames a pool has available. In a sound pool every frame is managed and
none is available below the hint; then the hint is not seen in any answer. -/

namespace PagedKernel.FramePool

structure Sound (pool : FramePool) : Prop where
  limit : pool.limit = pageCount
  /-- No frame below the hint is available. -/
  hint : ∀ f, pool.isAvailable f = true → pool.hint ≤ f.index.val

theorem index_eq_iff {f g : Frame} : f.index.val = g.index.val ↔ f = g := by
  cases f
  cases g
  simp only [Frame.mk.injEq, Fin.ext_iff]

theorem isAvailable_write (frames : Bitmap pageCount) (f g : Frame) (value : Bool)
    (hint limit : Nat) :
    (FramePool.mk (frames.write f.index.val value f.index.isLt) hint limit).isAvailable g =
      if g = f then value else frames.bit g.index.val g.index.isLt := by
  simp only [isAvailable, Bitmap.bit_write, index_eq_iff]

theorem isAvailable_write_false (frames : Bitmap pageCount) (f g : Frame)
    (hint limit hint' limit' : Nat) :
    (FramePool.mk (frames.write f.index.val false f.index.isLt) hint limit).isAvailable g = true ↔
      (FramePool.mk frames hint' limit').isAvailable g = true ∧ g ≠ f := by
  rw [isAvailable_write]
  by_cases hg : g = f <;> simp [hg, isAvailable]

theorem isAvailable_write_true (frames : Bitmap pageCount) (f g : Frame)
    (hint limit hint' limit' : Nat) :
    (FramePool.mk (frames.write f.index.val true f.index.isLt) hint limit).isAvailable g = true ↔
      (FramePool.mk frames hint' limit').isAvailable g = true ∨ g = f := by
  rw [isAvailable_write]
  by_cases hg : g = f <;> simp [hg, isAvailable]

variable {pool : FramePool} {f : Frame}

theorem isAvailable_filled (hint limit : Nat) (f : Frame) :
    (FramePool.mk (.filled pageCount false) hint limit).isAvailable f = false :=
  Bitmap.bit_filled _ _

theorem empty_sound : empty.Sound where
  limit := rfl
  hint f h := by
    rw [empty, isAvailable_filled] at h
    cases h

def exhausted : FramePool where
  frames := .filled pageCount false
  hint := pageCount
  limit := pageCount

theorem exhausted_sound : exhausted.Sound where
  limit := rfl
  hint f h := by
    rw [exhausted, isAvailable_filled] at h
    cases h

theorem alloc_eq_some (h : pool.alloc.1 = some f) :
    pool.isAvailable f = true ∧
      (∀ g, pool.alloc.2.isAvailable g = true ↔ pool.isAvailable g = true ∧ g ≠ f) ∧
      (pool.Sound → ∀ g, pool.isAvailable g = true → f.index.val ≤ g.index.val) := by
  obtain ⟨frames, hint, limit⟩ := pool
  cases hn : frames.nextTrue hint with
  | none => simp only [alloc, hn, reduceCtorEq] at h
  | some i =>
    simp only [alloc, hn, Option.some.injEq] at h
    subst h
    obtain ⟨-, -, hbit, hbefore⟩ := Bitmap.findFrom_eq_some hn
    refine ⟨hbit, ?_, ?_⟩
    · intro g
      simp only [alloc, hn]
      exact isAvailable_write_false frames ⟨i⟩ g ..
    · intro hs g hg
      apply Nat.le_of_not_lt
      intro hlt
      exact hbefore g.index.val g.index.isLt (hs.hint g hg) hlt hg

theorem alloc_eq_none (h : pool.alloc.1 = none) :
    pool.alloc.2 = pool ∧ (pool.Sound → ∀ g, pool.isAvailable g = false) := by
  obtain ⟨frames, hint, limit⟩ := pool
  cases hn : frames.nextTrue hint with
  | some i => simp only [alloc, hn, reduceCtorEq] at h
  | none =>
    refine ⟨by simp only [alloc, hn], ?_⟩
    intro hs g
    cases hg : (FramePool.mk frames hint limit).isAvailable g with
    | false => rfl
    | true =>
      exact absurd hg (Bitmap.findFrom_eq_none hn g.index.isLt (hs.hint g hg) g.index.isLt)

theorem alloc_eq_none_iff (hs : pool.Sound) :
    pool.alloc.1 = none ↔ ∀ g, pool.isAvailable g = false := by
  refine ⟨fun h => (alloc_eq_none h).2 hs, fun h => ?_⟩
  cases ha : pool.alloc.1 with
  | none => rfl
  | some f =>
    have hf := (alloc_eq_some ha).1
    rw [h f] at hf
    cases hf

theorem alloc_eq_some_iff (hs : pool.Sound) : pool.alloc.1 = some f ↔
    pool.isAvailable f = true ∧ ∀ g, pool.isAvailable g = true → f.index.val ≤ g.index.val := by
  refine ⟨fun h => ⟨(alloc_eq_some h).1, (alloc_eq_some h).2.2 hs⟩, fun ⟨hf, hleast⟩ => ?_⟩
  cases ha : pool.alloc.1 with
  | none =>
    rw [(alloc_eq_none_iff hs).mp ha] at hf
    cases hf
  | some g =>
    obtain ⟨hg, -, hle⟩ := alloc_eq_some ha
    exact congrArg some (index_eq_iff.mp (Nat.le_antisymm (hle hs f hf) (hleast g hg)))

theorem alloc_sound (hs : pool.Sound) : pool.alloc.2.Sound := by
  cases ha : pool.alloc.1 with
  | none => rw [(alloc_eq_none ha).1]; exact hs
  | some f =>
    obtain ⟨-, hav, hleast⟩ := alloc_eq_some ha
    refine ⟨by rw [alloc_limit, hs.limit], ?_⟩
    intro g hg
    obtain ⟨hga, hgf⟩ := (hav g).mp hg
    have hle := hleast hs g hga
    have hne : f.index.val ≠ g.index.val := fun he => hgf (index_eq_iff.mp he).symm
    obtain ⟨frames, hint, limit⟩ := pool
    cases hn : frames.nextTrue hint with
    | none => simp only [alloc, hn, reduceCtorEq] at ha
    | some i =>
      simp only [alloc, hn, Option.some.injEq] at ha ⊢
      subst ha
      simp only at hle hne
      omega

theorem Sound.managed (hs : pool.Sound) (f : Frame) : ¬ pool.limit ≤ f.index.val := by
  rw [hs.limit]
  exact Nat.not_le.mpr f.index.isLt

theorem free_of_taken (hs : pool.Sound) (h : pool.isAvailable f = false) :
    (pool.free f).1 = .ok () ∧ (pool.free f).2.Sound ∧
      ∀ g, (pool.free f).2.isAvailable g = true ↔ pool.isAvailable g = true ∨ g = f := by
  obtain ⟨frames, hint, limit⟩ := pool
  have hl : ¬ limit ≤ f.index.val := hs.managed f
  have hb : frames.bit f.index.val f.index.isLt = false := h
  simp only [free, if_neg hl, hb, Bool.false_eq_true, if_false]
  have hav : ∀ g, (FramePool.mk (frames.write f.index.val true f.index.isLt)
      (min hint f.index.val) limit).isAvailable g = true ↔
      (FramePool.mk frames hint limit).isAvailable g = true ∨ g = f :=
    fun g => isAvailable_write_true frames f g ..
  refine ⟨trivial, ⟨hs.limit, ?_⟩, hav⟩
  intro g hg
  rcases (hav g).mp hg with hg | rfl
  · have := hs.hint g hg
    simp only at this ⊢
    omega
  · exact Nat.min_le_right _ _

theorem free_of_available (hs : pool.Sound) (h : pool.isAvailable f = true) :
    pool.free f = (.error (.doubleFree f), pool) := by
  obtain ⟨frames, hint, limit⟩ := pool
  have hl : ¬ limit ≤ f.index.val := hs.managed f
  have hb : frames.bit f.index.val f.index.isLt = true := h
  simp only [free, if_neg hl, hb, if_true]

theorem reserve_sound (hs : pool.Sound) (f : Frame) :
    (pool.reserve f).1 = .ok () ∧ (pool.reserve f).2.Sound ∧
      ∀ g, (pool.reserve f).2.isAvailable g = true ↔ pool.isAvailable g = true ∧ g ≠ f := by
  obtain ⟨frames, hint, limit⟩ := pool
  have hl : ¬ limit ≤ f.index.val := hs.managed f
  simp only [reserve, if_neg hl]
  have hav : ∀ g, (FramePool.mk (frames.write f.index.val false f.index.isLt)
      hint limit).isAvailable g = true ↔
      (FramePool.mk frames hint limit).isAvailable g = true ∧ g ≠ f :=
    fun g => isAvailable_write_false frames f g ..
  refine ⟨trivial, ⟨hs.limit, ?_⟩, hav⟩
  intro g hg
  exact hs.hint g ((hav g).mp hg).1

theorem releaseRange_sound (hs : pool.Sound) (first count : Nat) :
    (pool.releaseRange first count).Sound := by
  obtain ⟨frames, hint, limit⟩ := pool
  simp only [releaseRange]
  split
  · refine ⟨hs.limit, ?_⟩
    intro g hg
    simp only [isAvailable, Bitmap.bit_fillFrom] at hg
    split at hg
    · next h => exact Nat.le_trans (Nat.min_le_right _ _) h.1
    · exact Nat.le_trans (Nat.min_le_left _ _) (hs.hint g hg)
  · exact hs

theorem isAvailable_releaseRange (pool : FramePool) (first count : Nat) (f : Frame) :
    (pool.releaseRange first count).isAvailable f = true ↔
      pool.isAvailable f = true ∨ first ≤ f.index.val ∧ f.index.val < first + count := by
  have hf := f.index.isLt
  obtain ⟨frames, hint, limit⟩ := pool
  simp only [releaseRange]
  split
  · simp only [isAvailable, Bitmap.bit_fillFrom]
    split
    · next h => exact iff_of_true rfl (.inr ⟨h.1, by omega⟩)
    · next h => exact (or_iff_left fun hin => h ⟨hin.1, by omega⟩).symm
  · exact (or_iff_left fun hin => by omega).symm

namespace Seeding

/-- The frames that a region makes available. -/
def Offers (reservedEnd : PhysicalAddress) (r : Region) (f : Frame) : Prop :=
  (frameRange reservedEnd r).1 ≤ f.index.val ∧
    f.index.val < min (frameRange reservedEnd r).2 MemoryLayout.kernelWindowPages

theorem isAvailable_addRegion (reservedEnd : PhysicalAddress) (s : Seeding) (r : Region)
    (f : Frame) : (addRegion reservedEnd s r).pool.isAvailable f = true ↔
      s.pool.isAvailable f = true ∨ Offers reservedEnd r f := by
  obtain ⟨pool, unmanaged⟩ := s
  simp only [addRegion, Offers]
  split
  · rw [isAvailable_releaseRange]
    exact or_congr .rfl (and_congr .rfl (by omega))
  · exact (or_iff_left fun hin => by omega).symm

theorem isAvailable_ofBootMap (map : BootMap) (reservedEnd : PhysicalAddress) (f : Frame) :
    (ofBootMap map reservedEnd).pool.isAvailable f = true ↔
      ∃ r ∈ BootMap.usable map, Offers reservedEnd r f := by
  have hfold : ∀ (regions : List Region) (s : Seeding),
      (regions.foldl (addRegion reservedEnd) s).pool.isAvailable f = true ↔
        s.pool.isAvailable f = true ∨ ∃ r ∈ regions, Offers reservedEnd r f := by
    intro regions
    induction regions with
    | nil => exact fun s => by simp
    | cons r rest ih =>
      intro s
      rw [List.foldl_cons, ih, isAvailable_addRegion, or_assoc]
      simp only [List.mem_cons, exists_eq_or_imp]
  refine (hfold _ _).trans (or_iff_right ?_)
  simp only [empty, isAvailable, Bitmap.bit_filled, Bool.false_eq_true, not_false_eq_true]

/-- The frames left out, those of each region on their own. -/
def totalLeftOut (map : BootMap) (reservedEnd : PhysicalAddress) : Nat :=
  ((BootMap.usable map).map (leftOut reservedEnd)).foldl (· + ·) 0

theorem unmanaged_ofBootMap (map : BootMap) (reservedEnd : PhysicalAddress) :
    (ofBootMap map reservedEnd).unmanaged =
      if totalLeftOut map reservedEnd ≤ maxLength then .ok (totalLeftOut map reservedEnd)
      else .error .addOverflow := by
  have hfold : ∀ (regions : List Region) (s : Seeding),
      (regions.foldl (addRegion reservedEnd) s).unmanaged =
        s.unmanaged >>= fun n => (regions.map (leftOut reservedEnd)).foldlM lengthSum n := by
    intro regions
    induction regions with
    | nil => exact fun s => (bind_pure s.unmanaged).symm
    | cons r rest ih =>
      intro s
      obtain ⟨pool, unmanaged⟩ := s
      rw [List.foldl_cons, ih]
      exact bind_assoc unmanaged _ _
  exact (hfold _ _).trans (foldlM_lengthSum _ (Nat.zero_le maxLength))

theorem addRegion_sound {s : Seeding} (hs : s.pool.Sound) (reservedEnd : PhysicalAddress)
    (r : Region) : (addRegion reservedEnd s r).pool.Sound := by
  obtain ⟨pool, unmanaged⟩ := s
  simp only [addRegion]
  split
  · exact releaseRange_sound hs _ _
  · exact hs

end Seeding

theorem ofBootMap_sound (map : BootMap) (reservedEnd : PhysicalAddress) :
    (Seeding.ofBootMap map reservedEnd).pool.Sound :=
  List.foldlRecOn (motive := fun s : Seeding => s.pool.Sound) _ _ empty_sound
    fun _ hs r _ => Seeding.addRegion_sound hs reservedEnd r

end PagedKernel.FramePool
