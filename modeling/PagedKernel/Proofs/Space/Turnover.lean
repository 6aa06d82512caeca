import PagedKernel.Proofs.FramePool.Count
import PagedKernel.Proofs.Space.Mapping

/-! Which frames go between the pool and a space, and how many. When two states cover the
same frames and one holds all that the other does, what it holds on top is what its pool
lacks. When they hold the same, there is no trace of what was done between them. -/

namespace PagedKernel.Mmu

variable {v w : Mmu} {f : Frame}

theorem available_iff_of_held (hv : v.Sound) (hw : w.Sound) (hc : ∀ f, w.Covers f ↔ v.Covers f)
    (hk : ∀ r f, v.held r = some f → w.held r = some f) :
    v.available f ↔ w.available f ∨ ∃ r, v.held r = none ∧ w.held r = some f := by
  have hcovers := hc f
  rw [covers_iff, covers_iff] at hcovers
  constructor
  · intro ha
    refine (hcovers.mpr (.inl ha)).imp_right fun ⟨r, hr⟩ => ⟨r, ?_, hr⟩
    cases hold : v.held r with
    | none => rfl
    | some g =>
      obtain rfl : g = f := Option.some.inj ((hk r g hold).symm.trans hr)
      exact absurd ha (hv.not_available hold)
  · intro h
    refine (hcovers.mp (h.imp_right fun ⟨r, _, hr⟩ => ⟨r, hr⟩)).resolve_right ?_
    rintro ⟨q, hq⟩
    rcases h with ha | ⟨r, hnone, hr⟩
    · exact hw.not_available (hk q f hq) ha
    · obtain rfl := hw.role_unique (hk q f hq) hr
      rw [hnone] at hq
      cases hq

theorem Sound.ncard_held (hv : v.Sound) {roles : Finset Role}
    (hr : ∀ r ∈ roles, v.held r ≠ none) :
    {f | ∃ r ∈ roles, v.held r = some f}.ncard = roles.card := by
  have hroles : some '' {f | ∃ r ∈ roles, v.held r = some f} = v.held '' roles := by
    ext x
    simp only [Set.mem_image, Set.mem_ofPred_eq, Finset.mem_coe]
    constructor
    · rintro ⟨f, ⟨r, hr, hf⟩, rfl⟩
      exact ⟨r, hr, hf⟩
    · rintro ⟨r, hmem, rfl⟩
      obtain ⟨f, hf⟩ := Option.ne_none_iff_exists'.mp (hr r hmem)
      exact ⟨f, ⟨r, hmem, hf⟩, hf.symm⟩
  have hinjective : Set.InjOn v.held roles := by
    intro r hmem q _ hrq
    obtain ⟨f, hf⟩ := Option.ne_none_iff_exists'.mp (hr r hmem)
    exact hv.role_unique hf (hrq ▸ hf)
  rw [← Set.ncard_image_of_injective _ (Option.some_injective _), hroles, hinjective.ncard_image,
    Set.ncard_coe_finset]

theorem available_eq_add {gained : Finset Role} (hv : v.Sound) (hw : w.Sound)
    (hc : ∀ f, w.Covers f ↔ v.Covers f) (hk : ∀ r f, v.held r = some f → w.held r = some f)
    (hg : ∀ r, r ∈ gained ↔ v.held r = none ∧ w.held r ≠ none) :
    v.machine.pool.available = w.machine.pool.available + gained.card := by
  rw [← hw.ncard_held fun r hr => ((hg r).mp hr).2]
  refine FramePool.available_eq_add_ncard (fun f => ?_) fun f ⟨r, _, hr⟩ => hw.not_available hr
  refine (available_iff_of_held hv hw hc hk).trans (or_congr .rfl (exists_congr fun r => ?_))
  rw [hg]
  exact ⟨fun h => ⟨⟨h.1, h.2 ▸ Option.some_ne_none f⟩, h.2⟩, fun h => ⟨h.1.1, h.2⟩⟩

theorem available_iff_of_held_eq (hv : v.Sound) (hw : w.Sound)
    (hc : ∀ f, w.Covers f ↔ v.Covers f) (hh : w.held = v.held) (f : Frame) :
    w.available f ↔ v.available f := by
  rw [available_iff_of_held hv hw hc fun r g hr => hh ▸ hr]
  refine (or_iff_left ?_).symm
  rintro ⟨r, hnone, hr⟩
  rw [hh, hnone] at hr
  cases hr

theorem Sound.space_eq (hv : v.Sound) (hw : w.Sound)
    (hd : w.space.directory = v.space.directory) (hl : w.leaf = v.leaf)
    (ho : w.space.isAvailable = v.space.isAvailable) : w.space = v.space := by
  have hpages : w.space.virtualPages = v.space.virtualPages := by
    refine Bitmap.eq_of_bits (by rw [pageCount_value]) fun p hp => ?_
    rw [← AddressSpace.isAvailable_of_lt _ hp, ← AddressSpace.isAvailable_of_lt _ hp, ho]
  have hcounts : w.space.occupancy = v.space.occupancy := by
    refine Vector.ext fun slot hslot => ?_
    rw [hw.occupancy slot hslot, hv.occupancy slot hslot]
    simp only [presentBelow, hl]
  revert hpages hcounts hd
  cases w.space
  cases v.space
  rintro rfl rfl rfl
  rfl

/-- Two states have the same frames available, pages mapped and on offer, and tables linked. -/
structure NoTrace (v w : Mmu) : Prop where
  available : ∀ f, w.available f ↔ v.available f
  leaf : w.leaf = v.leaf
  tables : w.table? = v.table?
  offered : w.space.isAvailable = v.space.isAvailable
  mapped : w.space.mappedPages = v.space.mappedPages

theorem Step.noTrace (h : Step none v w) (hv : v.Sound) (hw : w.Sound) (hl : w.leaf = v.leaf)
    (ht : w.table? = v.table?) (ho : w.space.isAvailable = v.space.isAvailable) :
    NoTrace v w where
  available := available_iff_of_held_eq hv hw h.covers_iff (held_eq h.directory ht hl)
  leaf := hl
  tables := ht
  offered := ho
  mapped := congrArg _ (hv.space_eq hw h.directory hl ho)

end PagedKernel.Mmu
