import PagedKernel.Proofs.Host.Landing
import PagedKernel.Proofs.Range.Fresh

/-! Requests for fresh memory. A granted one has the first range that fits, mapped to zeroed
frames that were available before, and leaves all memory in use as it was. A request is
refused exactly when its length is zero, nothing fits, or the pool has fewer frames than the
pages and their missing tables take; then no trace of it is left. -/

namespace PagedKernel.Mmu

variable {v w : Mmu} {hint base : VirtualAddress} {length : Nat} {writable user : Bool}
  {events : Array Event} {t : Traced Mmu}

/-- What a request for fresh memory has done once it is granted. -/
structure Granted (writable user : Bool) (v w : Mmu) (hint base : VirtualAddress) (length : Nat) :
    Prop where
  aligned : base.toNat % 4096 = 0
  first : IsLeast {p | hint.pageNumber ≤ p ∧ v.space.OffersRun p (pagesSpanning length)}
    base.pageNumber
  pages : ∀ p, base.pageNumber ≤ p → p < base.pageNumber + pagesSpanning length →
    w.space.isAvailable p = false ∧
      ∃ f, w.leaf p = .ofFrame f (.leaf writable user false) ∧ v.available f ∧
        ∀ pa : PhysicalAddress, pa.frame = f → w.machine.ram.byte pa = .ok 0
  distinct : ∀ p q, base.pageNumber ≤ p → p < base.pageNumber + pagesSpanning length →
    base.pageNumber ≤ q → q < base.pageNumber + pagesSpanning length →
    (w.leaf p).frame = (w.leaf q).frame → p = q
  others : ∀ p, ¬ (base.pageNumber ≤ p ∧ p < base.pageNumber + pagesSpanning length) →
    w.leaf p = v.leaf p
  /-- Memory in use keeps its bytes, but for the directory and the tables of the space. -/
  kept : ∀ pa : PhysicalAddress, ¬ v.available pa.frame → ¬ v.IsStructure pa.frame →
    ∀ b, v.machine.ram.byte pa = .ok b → w.machine.ram.byte pa = .ok b
  taken : v.machine.pool.available =
    w.machine.pool.available + (pagesSpanning length + (newTables v w).card)

theorem Mapped.granted (hv : v.Sound) (ht : v.Trimmed)
    (h : Mapped writable user v w hint base length) :
    Granted writable user v w hint base length where
  aligned := by
    rw [← base.offset_toNat, h.aligned]
    rfl
  first := h.first
  pages p hle hlt := by
    obtain ⟨f, hleaf, hheld⟩ := h.grown.held_page hle hlt
    obtain ⟨g, hg, hinstalled, hzero⟩ := h.zeroed p hle hlt
    obtain rfl : f = g := Option.some.inj (hheld.symm.trans hg)
    refine ⟨by rw [h.grown.offered, if_pos ⟨hle, hlt⟩], f, hleaf, ?_, ?_⟩
    · rw [available_iff_of_held hv h.grown.sound h.grown.step.covers_iff h.grown.held_kept]
      exact .inr ⟨.page p, h.grown.held_page_before hv hle hlt, hheld⟩
    · rintro pa rfl
      rw [Ram.byte_eq_ok_iff, hzero]
      exact ⟨hinstalled, FrameWords.byte_zero _⟩
  distinct p q hp hp' hq hq' he := by
    obtain ⟨f, hf, hheld⟩ := h.grown.held_page hp hp'
    obtain ⟨g, hg, hheld'⟩ := h.grown.held_page hq hq'
    obtain rfl : f = g := by rwa [hf, hg] at he
    exact Role.page.inj (h.grown.sound.role_unique hheld hheld')
  others := h.grown.leaf
  kept pa ha hs b hb := by
    rw [Ram.byte_eq_ok_iff] at hb ⊢
    rw [h.grown.step.installed, h.grown.step.words_kept h.grown.pages ha hs]
    exact hb
  taken := by
    rw [h.grown.newTables_eq ht]
    exact h.grown.available_eq hv ht

theorem map_grants (hv : v.Sound) (ht : v.Trimmed)
    (hrun : (map hint length writable user).run ⟨v, events⟩ = .ok (.ok base) t) :
    Granted writable user v t.state hint base length :=
  (Op.Meets.post (map_meets hv ht (fun _ _ => .inr trivial) hint length) hrun).1.granted hv ht

theorem map_grants_acrossSlots : ∃ v base t, SpaceHost.twoPagesSpace = some v ∧ v.Sound ∧
    v.Trimmed ∧ (map (.ofBits 8384512) 5000 true true).run ⟨v, #[]⟩ = .ok (.ok base) t ∧
    Granted true true v t.state (.ofBits 8384512) base 5000 ∧ 2 ∈ newTables v t.state := by
  have hsome : (SpaceHost.twoPagesSpace.any fun v =>
      ((map (.ofBits 8384512) 5000 true true).answer? v).any fun o =>
        (v.table? 2).isNone && (o.2.state.table? 2).isSome) = true := by
    decide +kernel
  obtain ⟨v, hv, hany⟩ := (Option.any_eq_true _ _).mp hsome
  obtain ⟨⟨base, t⟩, hanswer, hnew⟩ := (Option.any_eq_true _ _).mp hany
  simp only [Bool.and_eq_true, Option.isNone_iff_eq_none, Option.isSome_iff_ne_none] at hnew
  obtain ⟨hsound, htrimmed⟩ := SpaceHost.twoPagesSpace_sound hv
  have hrun := Call.run_of_answer? hanswer
  exact ⟨v, base, t, hv, hsound, htrimmed, hrun, map_grants hsound htrimmed hrun,
    mem_newTables_iff.mpr hnew⟩

theorem MapRefused.unique {e e' : MappingError} (h : MapRefused v hint length e)
    (h' : MapRefused v hint length e') : e = e' := by
  cases h with
  | invalidRange h0 =>
    cases h' with
    | invalidRange => rfl
    | outOfVirtualSpace hn => exact absurd h0 hn
    | outOfMemory hn => exact absurd h0 hn
  | outOfVirtualSpace hn hnone =>
    cases h' with
    | invalidRange h0 => exact absurd h0 hn
    | outOfVirtualSpace => rfl
    | outOfMemory _ hf => exact absurd hf.1.2 (hnone _ hf.1.1)
  | outOfMemory hn hf =>
    cases h' with
    | invalidRange h0 => exact absurd h0 hn
    | outOfVirtualSpace _ hnone => exact absurd hf.1.2 (hnone _ hf.1.1)
    | outOfMemory => rfl

theorem Mapped.not_refused (hv : v.Sound) (ht : v.Trimmed)
    (h : Mapped writable user v w hint base length) (e : MappingError) :
    ¬ MapRefused v hint length e := by
  intro he
  cases he with
  | invalidRange h0 => exact h.some h0
  | outOfVirtualSpace _ hnone => exact hnone _ h.first.1.1 h.first.1.2
  | outOfMemory _ hf hscarce =>
    rw [hf.unique h.first, h.grown.available_eq hv ht] at hscarce
    omega

theorem map_refused_iff (hv : v.Sound) (ht : v.Trimmed) (hint : VirtualAddress) (length : Nat)
    (writable user : Bool) (events : Array Event) :
    match (map hint length writable user).run ⟨v, events⟩ with
    | .ok r t => (∀ e, r = .error e ↔ MapRefused v hint length e) ∧
        ∀ e, r = .error e → NoTrace v t.state
    | .error _ _ => ∃ f, v.available f ∧ ¬ v.machine.ram.installed f := by
  have hmeets : (map hint length writable user).Meets
      (∃ f, v.available f ∧ ¬ v.machine.ram.installed f) v _ _ :=
    map_meets hv ht (fun f hf => or_iff_not_imp_left.mpr fun hn => ⟨f, hf, hn⟩) hint length
  have hpost := hmeets events
  revert hpost
  cases (map hint length writable user).run ⟨v, events⟩ with
  | error e t => exact And.left
  | ok r t =>
    rintro ⟨hpost, -⟩
    cases r with
    | ok base => exact ⟨fun e => iff_of_false nofun (hpost.not_refused hv ht e), nofun⟩
    | error cause =>
      obtain ⟨hrestored, hcause⟩ := hpost
      refine ⟨fun e => ⟨?_, fun he => congrArg _ (hcause.unique he)⟩, fun _ _ =>
        hrestored.noTrace hv⟩
      rintro ⟨⟩
      exact hcause

theorem emptySpace_available (h : emptySpace = some v) :
    v.machine.pool.available ≤ 15 ∧ ∀ f, v.available f → v.machine.ram.installed f := by
  obtain ⟨hcreated, -⟩ := emptySpace_created h
  have hbefore : ∀ f, (FramePool.empty.releaseRange 0 16).isAvailable f = true ↔
      f.index.val < 16 := by
    intro f
    have hempty : FramePool.empty.isAvailable f = false := Bitmap.bit_filled false f.index.isLt
    simp [FramePool.isAvailable_releaseRange, hempty]
  let frames : Finset Frame := Finset.univ.image fun i : Fin 16 => ⟨i.castLE (by decide)⟩
  have hframes : ∀ f : Frame, f.index.val < 16 → f ∈ frames := fun f hf =>
    Finset.mem_image.mpr ⟨⟨f.index.val, hf⟩, Finset.mem_univ _, rfl⟩
  have hcard : frames.card ≤ 16 := Finset.card_image_le
  have hdirectory := hframes _ ((hbefore _).mp hcreated.taken)
  refine ⟨(FramePool.available_le_card (s := frames.erase v.space.directory) fun f hf => ?_).trans
    ?_, fun f hf => ?_⟩
  · obtain ⟨hf, hne⟩ := (hcreated.available f).mp hf
    exact Finset.mem_erase.mpr ⟨hne, hframes f ((hbefore f).mp hf)⟩
  · rw [Finset.card_erase_of_mem hdirectory]
    omega
  · rw [hcreated.installed]
    exact (hbefore f).mp ((hcreated.available f).mp hf).1

theorem map_refused_iff_shortOfTable : ∃ v t, emptySpace = some v ∧ v.Sound ∧ v.Trimmed ∧
    (map (.ofBits 8388608) 61440 true true).run ⟨v, #[]⟩ = .ok (.error .outOfMemory) t ∧
    MapRefused v (.ofBits 8388608) 61440 .outOfMemory ∧ NoTrace v t.state := by
  obtain ⟨v, hv⟩ : ∃ v, emptySpace = some v := Option.isSome_iff_exists.mp (by decide +kernel)
  obtain ⟨hcreated, hfresh⟩ := emptySpace_created hv
  obtain ⟨havailable, hinstalled⟩ := emptySpace_available hv
  have htrimmed : v.Trimmed := fun slot f h => nomatch (hcreated.tables slot).symm.trans h
  have hrefused : MapRefused v (.ofBits 8388608) 61440 .outOfMemory := by
    have hfirst : IsLeast {p | (VirtualAddress.ofBits 8388608).pageNumber ≤ p ∧
        v.space.OffersRun p (pagesSpanning 61440)} 2048 := by
      refine ⟨⟨Nat.le_refl _, fun q hle hlt => ?_⟩, fun p hp => hp.1⟩
      replace hlt : q < 2048 + 15 := hlt
      have hin : q < pageCount ∧ q ≠ 0 := by
        rw [pageCount_value]
        omega
      rw [hfresh, AddressSpace.isAvailable_fresh, decide_eq_true hin.1, decide_eq_true hin.2]
      rfl
    have hmissing : 2 ∈ v.missingTables 2048 15 :=
      mem_missingTables_iff.mpr ⟨⟨2048, by decide⟩, hcreated.tables 2⟩
    have hpos := Finset.card_pos.mpr ⟨_, hmissing⟩
    refine .outOfMemory (by decide) hfirst ?_
    change _ < 15 + (v.missingTables 2048 15).card
    omega
  have hiff := map_refused_iff hcreated.sound htrimmed (.ofBits 8388608) 61440 true true #[]
  split at hiff
  · next r t hrun =>
    obtain ⟨hcause, hnoTrace⟩ := hiff
    obtain rfl := (hcause _).mpr hrefused
    exact ⟨v, t, hv, hcreated.sound, htrimmed, hrun, hrefused, hnoTrace _ rfl⟩
  · obtain ⟨f, hf, hn⟩ := hiff
    exact absurd (hinstalled f hf) hn

end PagedKernel.Mmu
