import PagedKernel.Proofs.Range.Demand

/-! Mapping and unmapping anonymous memory. A request is answered with the whole
range mapped to frames the space owns from then on, or refused with the space as
it was before. -/

namespace PagedKernel

theorem pagesTouched_of_aligned {va : VirtualAddress} {length : Nat} (ha : va.offset = 0)
    (hl : length ≤ maxLength) : pagesTouched va.toMemoryAddress length = pagesSpanning length := by
  have h0 : va.pageOffset.toNat = 0 := congrArg UInt32.toNat ha
  rw [pagesTouched, h0, saturatingAdd_of_le (by omega), Nat.add_zero]

theorem pagesTouched_of_le {va : VirtualAddress} {length : Nat}
    (h : pagesTouched va.toMemoryAddress length ≤ pageCount) :
    length + va.offset.toNat ≤ maxLength ∧
      pagesTouched va.toMemoryAddress length = pagesSpanning (length + va.offset.toNat) := by
  have hmax : length + va.offset.toNat ≤ maxLength := by
    refine Classical.byContradiction fun hn => absurd h (Nat.not_le.mpr ?_)
    have hsat : saturatingAdd length va.offset.toNat = maxLength := Nat.min_eq_right (by omega)
    have hbig : pageCount < pagesSpanning maxLength := by decide
    exact Nat.lt_of_lt_of_eq hbig (congrArg pagesSpanning hsat).symm
  exact ⟨hmax, congrArg pagesSpanning (saturatingAdd_of_le hmax)⟩

def AddressSpace.OffersRun (s : AddressSpace) (p n : Nat) : Prop :=
  ∀ q, p ≤ q → q < p + n → s.isAvailable q = true

namespace Mmu

variable {v w x : Mmu} {gap : Prop} {f : Frame} {first n : Nat} {writable user : Bool}

theorem Loosened.assigned (hv : v.Sound) {va : VirtualAddress} (h : Loosened v w f)
    (ho : v.space.isAvailable va.pageNumber = true)
    (h' : Assigned w x va.pageNumber (.ofFrame f (.leaf writable user false))) :
    Grown user (FreshEntry writable user) v x va.pageNumber 1 where
  sound := h'.sound
  step := by
    have hstep : Step (some f) w x := h'.step
    refine ⟨fun g => (hstep.installed g).trans (h.installed g),
      hstep.directory.trans (congrArg _ h.space), ?_, ?_⟩
    · intro g
      rw [hstep.covers, h.covers]
      by_cases hg : g = f
      · simp only [hg, or_true, true_iff, reduceCtorEq, or_false]
        exact ⟨none, h.taken⟩
      · simp [hg, Ne.symm hg]
    · intro g hg
      have hgf : g ≠ f := by
        rintro rfl
        exact hg ⟨none, h.taken⟩
      rw [hstep.kept g fun hw => hg ((h.covers g).mp hw).1, h.kept g hgf]
  before p hle hlt := by
    rw [show p = va.pageNumber by omega]
    exact ho
  mapped p hle hlt := by
    rw [h'.leaf, if_pos (by omega)]
    exact ⟨⟨f, rfl⟩, rfl⟩
  leaf p hp := by
    rw [h'.leaf, if_neg (by omega), h.leaf]
  tables s t ht := h'.tables s t (h.tables ▸ ht)
  trimmed ht := by
    refine h'.trimmed rfl ?_
    intro s t hs
    simp only [presentBelow, h.leaf]
    exact ht s t (h.tables ▸ hs)
  offered p := by
    rw [h'.offered, h.space]
    exact if_congr (by omega) rfl rfl
  uniform hu := by
    apply h'.uniform
    intro s
    rw [h.link, h.tables]
    exact hu s
  pages := (h.pages hv).trans h'.pages

theorem Loosened.zeroed_assigned {page : Nat} (h : Loosened v w f)
    (h' : Assigned w x page (.ofFrame f (.leaf writable user false))) : x.Zeroed page 1 := by
  intro p hle hlt
  have hstep : Step (some f) w x := h'.step
  refine ⟨f, held_page_eq_some.mpr ?_, (hstep.installed f).mpr h.present,
    (hstep.kept f h.loose).trans h.zeroed⟩
  rw [h'.leaf, if_pos (by omega)]
  exact ⟨rfl, rfl, rfl⟩

theorem Loosened.available_iff (hv : v.Sound) (h : Loosened v w f) (g : Frame) :
    v.available g ↔ w.available g ∨ g = f := by
  have hheld : w.held = v.held := held_eq (congrArg _ h.space) h.tables h.leaf
  have hcovers := h.covers g
  rw [covers_iff, covers_iff, hheld] at hcovers
  constructor
  · intro ha
    by_cases hg : g = f
    · exact .inr hg
    · refine .inl ((hcovers.mpr ⟨.inl ha, hg⟩).resolve_right ?_)
      rintro ⟨r, hr⟩
      exact hv.not_available hr ha
  · rintro (ha | rfl)
    · refine (hcovers.mp (.inl ha)).1.resolve_right ?_
      rintro ⟨r, hr⟩
      exact h.sound.not_available (hheld ▸ hr) ha
    · exact h.taken

theorem Loosened.scarce (hv : v.Sound) (h : Loosened v w f) {page : Nat}
    (ht : w.table? (page / 1024) = none) (ha : ∀ g, ¬ w.available g) :
    v.machine.pool.available < v.demand page 1 := by
  have hone : v.machine.pool.available ≤ 1 := FramePool.available_le_card (s := {f}) fun g hg =>
    Finset.mem_singleton.mpr (((h.available_iff hv g).mp hg).resolve_left (ha g))
  have hmissing : page / 1024 ∈ v.missingTables page 1 :=
    mem_missingTables_iff.mpr ⟨⟨page, by omega, by omega, rfl⟩, h.tables ▸ ht⟩
  have hpos := Finset.card_pos.mpr ⟨_, hmissing⟩
  simp only [demand]
  omega

theorem Loosened.returned (hv : v.Sound) (h : Loosened v w f) :
    (w.machine.pool.free f).1 = .ok () ∧
      Restored user v (w.withPool (w.machine.pool.free f).2) := by
  obtain ⟨hok, hs, hcov⟩ := h.sound.give h.loose
  have hpages : PagesKept v w := h.pages hv
  refine ⟨hok, hs, ⟨h.installed, congrArg _ h.space, ?_, ?_⟩, h.leaf, h.tables, ?_, ?_, hpages⟩
  · intro g
    rw [hcov, h.covers]
    by_cases hg : g = f
    · simp only [hg, or_true, true_iff, reduceCtorEq, or_false]
      exact ⟨none, h.taken⟩
    · simp [hg]
  · intro g hg
    refine h.kept g ?_
    rintro rfl
    exact hg ⟨none, h.taken⟩
  · exact congrArg _ h.space
  · intro hu s
    refine (congrFun h.link s).trans ((hu s).trans ?_)
    rw [← h.tables]
    rfl

theorem mapFresh_meets (hv : v.Sound) (hr : ∀ f, v.available f → v.machine.ram.installed f ∨ gap)
    {va : VirtualAddress} (ho : v.space.isAvailable va.pageNumber = true) :
    (mapFresh va writable user).Meets gap v
      (fun _ w => Grown user (FreshEntry writable user) v w va.pageNumber 1 ∧
        w.Zeroed va.pageNumber 1)
      fun e w => e = .outOfMemory ∧ Restored user v w ∧
        v.machine.pool.available < v.demand va.pageNumber 1 := by
  unfold mapFresh
  refine (takeFrame_gives v).lift_bind ?_
  cases ha : v.machine.pool.alloc.1 with
  | none =>
    obtain ⟨hsame, hnone⟩ := FramePool.alloc_eq_none ha
    have hzero : v.machine.pool.available ≤ 0 := FramePool.available_le_card (s := ∅) fun f hf =>
      absurd hf (Bool.eq_false_iff.mp (hnone hv.pool f))
    refine Call.throw_meets ⟨rfl, ?_, ?_⟩
    · rw [hsame]
      exact .refl hv
    · simp only [demand]
      omega
  | some f =>
    have havail := (FramePool.alloc_eq_some ha).1
    refine Call.lift_bind_meets (zeroFrame_meets (hr f havail)) ?_
    rintro - w ⟨hi, hw⟩
    have hl : Loosened v w f := hw ▸ hv.loosened ha hi
    have hreach : ∀ g, w.available g → w.machine.ram.installed g ∨ gap := by
      intro g hg
      rw [hl.installed]
      exact hr g ((hl.available_iff hv g).mpr (.inl hg))
    have hrun := assign_meets hl.sound hreach f.base va
        (.leaf writable user false) <| by
      rw [Frame.base_frame]
      exact fun _ => hl.loose
    rw [Frame.base_frame] at hrun
    refine Call.lift_bind_meets hrun ?_
    intro r x hx
    cases r with
    | ok u => exact Call.pure_meets ⟨hl.assigned hv ho hx, hl.zeroed_assigned hx⟩
    | error cause =>
      obtain ⟨rfl, hcause⟩ := hx
      obtain ⟨hok, hback⟩ := hl.returned hv
      refine (freeFrame_gives x f).lift_bind ?_
      rw [hok]
      have habsent : (x.leaf va.pageNumber).isPresent = false := by
        rw [hl.leaf]
        exact hv.offered ho
      cases hcause with
      | nullPage h =>
        rw [h, hv.null.1] at ho
        cases ho
      | alreadyMapped hn h =>
        rw [h] at habsent
        cases habsent
      | outOfFrames hn hp ht hnone => exact Call.throw_meets ⟨rfl, hback, hl.scarce hv ht hnone⟩

/-- Mapping the rest of a range. The invariant is that the pages so far are a
grown run; it is what undoing needs, and it says what the run has taken. -/
theorem mapFreshPages_meets (hv : v.Sound) (ht : v.Trimmed)
    (hr : ∀ f, v.available f → v.machine.ram.installed f ∨ gap) {mapped : Nat}
    (h : Grown user (FreshEntry writable user) v w first mapped) (hz : w.Zeroed first mapped)
    (ho : ∀ p, first ≤ p → p < first + (mapped + n) → v.space.isAvailable p = true) :
    (mapFreshPages first writable user mapped n).Meets gap w
      (fun _ x => Grown user (FreshEntry writable user) v x first (mapped + n) ∧
        x.Zeroed first (mapped + n))
      fun e x => e = .outOfMemory ∧ Restored user v x ∧
        v.machine.pool.available < v.demand first (mapped + n) := by
  induction n generalizing w mapped with
  | zero => exact Call.pure_meets ⟨h, hz⟩
  | succ n ih =>
    have hoffer : v.space.isAvailable (first + mapped) = true := ho _ (by omega) (by omega)
    have hlt : first + mapped < pageCount := AddressSpace.lt_of_isAvailable hoffer
    have hoffer' : w.space.isAvailable (first + mapped) = true := by
      rw [h.offered, if_neg (by omega)]
      exact hoffer
    unfold mapFreshPages
    refine (Op.ofExcept_gives (Page.ofIndex_eq_ok hlt)).lift_bind ?_
    have hreach : ∀ f, w.available f → w.machine.ram.installed f ∨ gap := by
      intro f hf
      rw [h.step.installed]
      exact hr f (h.available_before hv hf)
    have hone : (mapFresh (Page.mk ⟨first + mapped, hlt⟩).base writable user).Meets gap w _ _ :=
      mapFresh_meets h.sound hreach (by rw [Page.base_pageNumber]; exact hoffer')
    rw [Page.base_pageNumber] at hone
    refine Call.Meets.bind (m := fun _ x =>
      Grown user (FreshEntry writable user) v x first (mapped + 1) ∧
        x.Zeroed first (mapped + 1)) ?_ ?_
    · refine Call.tryCatch_meets (hone.mono ?_ fun _ _ => id) ?_
      · rintro _ x ⟨hx, hzx⟩
        exact ⟨h.trans hx, hz.append hx.step hx.pages hzx⟩
      · rintro e x ⟨rfl, hx, hscarce⟩
        refine Call.lift_bind_meets (rollback_meets hv ht (h.restored hx)) fun _ y hy => ?_
        exact Call.throw_meets ⟨rfl, hy, h.scarce hv ht (by omega) hscarce⟩
    · rintro _ x ⟨hx, hzx⟩
      have hrest := ih hx hzx fun p hle hlt => ho p hle (by omega)
      rw [show mapped + 1 + n = mapped + (n + 1) by omega] at hrest
      exact hrest

theorem nextRun_eq_some {s : AddressSpace} {start : Nat} {base : VirtualAddress}
    (h : s.nextRun start n = some base) :
    start ≤ base.pageNumber ∧ base.offset = 0 ∧ base.pageNumber + n ≤ pageCount ∧
      ∀ p, base.pageNumber ≤ p → p < base.pageNumber + n → s.isAvailable p = true := by
  rw [AddressSpace.nextRun, Option.map_eq_some_iff] at h
  obtain ⟨i, hi, rfl⟩ := h
  obtain ⟨hstart, hfit, hrun⟩ := Bitmap.findRun_eq_some hi
  rw [Page.base_pageNumber]
  refine ⟨hstart, ?_, hfit, ?_⟩
  · exact Page.base_offset _
  · intro p hle hlt
    have hp : p < pageCount := Nat.lt_of_lt_of_le hlt hfit
    rw [s.isAvailable_of_lt hp]
    exact hrun p hp hle hlt

theorem exists_nextRun_le {s : AddressSpace} {start p : Nat} (hn : n ≠ 0) (hp : start ≤ p)
    (hrun : s.OffersRun p n) : ∃ base, s.nextRun start n = some base ∧ base.pageNumber ≤ p := by
  have hlast := AddressSpace.lt_of_isAvailable (hrun (p + n - 1) (by omega) (by omega))
  have hbits : ∀ q (hq : q < pageCount), p ≤ q → q < p + n → s.virtualPages.bit q hq = true := by
    intro q hq hle hlt
    rw [← s.isAvailable_of_lt hq]
    exact hrun q hle hlt
  obtain ⟨k, hk, hle⟩ := Bitmap.exists_findRun_le (Nat.pos_of_ne_zero hn) hp (by omega) hbits
  refine ⟨(Page.mk k).base, ?_, ?_⟩
  · rw [AddressSpace.nextRun, hk]
    rfl
  · rwa [Page.base_pageNumber]

theorem nextRun_isLeast {s : AddressSpace} {start : Nat} {base : VirtualAddress} (hn : n ≠ 0)
    (h : s.nextRun start n = some base) :
    IsLeast {p | start ≤ p ∧ s.OffersRun p n} base.pageNumber := by
  obtain ⟨hstart, -, -, hrun⟩ := nextRun_eq_some h
  refine ⟨⟨hstart, hrun⟩, ?_⟩
  rintro p ⟨hp, hrun'⟩
  obtain ⟨base', hbase', hle⟩ := exists_nextRun_le hn hp hrun'
  rw [h, Option.some.injEq] at hbase'
  rwa [hbase']

theorem not_offersRun {s : AddressSpace} {start p : Nat} (hn : n ≠ 0)
    (h : s.nextRun start n = none) (hp : start ≤ p) : ¬ s.OffersRun p n := by
  intro hrun
  obtain ⟨base, hbase, -⟩ := exists_nextRun_le hn hp hrun
  rw [h] at hbase
  cases hbase

/-- What a request for fresh memory changes. -/
structure Mapped (writable user : Bool) (v w : Mmu) (hint base : VirtualAddress) (length : Nat) :
    Prop where
  grown : Grown user (FreshEntry writable user) v w base.pageNumber (pagesSpanning length)
  zeroed : w.Zeroed base.pageNumber (pagesSpanning length)
  some : length ≠ 0
  first : IsLeast {p | hint.pageNumber ≤ p ∧ v.space.OffersRun p (pagesSpanning length)}
    base.pageNumber
  aligned : base.offset = 0
  fits : base.pageNumber + pagesSpanning length ≤ pageCount

theorem Mapped.hint {hint base : VirtualAddress} {length : Nat}
    (h : Mapped writable user v w hint base length) : hint.pageNumber ≤ base.pageNumber :=
  h.first.1.1

inductive MapRefused (v : Mmu) (hint : VirtualAddress) (length : Nat) : MappingError → Prop where
  | invalidRange (h : length = 0) : MapRefused v hint length .invalidRange
  | outOfVirtualSpace (h0 : length ≠ 0)
    (h : ∀ p, hint.pageNumber ≤ p → ¬ v.space.OffersRun p (pagesSpanning length)) :
    MapRefused v hint length (.outOfVirtualSpace (pagesSpanning length))
  | outOfMemory {first : Nat} (h0 : length ≠ 0)
    (hf : IsLeast {p | hint.pageNumber ≤ p ∧ v.space.OffersRun p (pagesSpanning length)} first)
    (h : v.machine.pool.available < v.demand first (pagesSpanning length)) :
    MapRefused v hint length .outOfMemory

theorem map_meets (hv : v.Sound) (ht : v.Trimmed)
    (hr : ∀ f, v.available f → v.machine.ram.installed f ∨ gap) (hint : VirtualAddress)
    (length : Nat) :
    (map hint length writable user).Meets gap v
      (fun base w => Mapped writable user v w hint base length)
      fun e w => Restored user v w ∧ MapRefused v hint length e := by
  unfold map
  dsimp only
  split
  · next h0 =>
    rw [pagesSpanning_eq_zero_iff] at h0
    exact Call.throw_bind_meets ⟨.refl hv, .invalidRange h0⟩
  next hn =>
  have h0 : length ≠ 0 := fun h => hn (pagesSpanning_eq_zero_iff.mpr h)
  refine (Op.read_gives fun v : Mmu => v.space.nextRun hint.page.index.val
    (pagesSpanning length)).lift_bind ?_
  cases hrun : v.space.nextRun hint.page.index.val (pagesSpanning length) with
  | none =>
    exact Call.throw_meets ⟨.refl hv, .outOfVirtualSpace h0 fun p hp => not_offersRun hn hrun hp⟩
  | some base =>
    have hfirst := nextRun_isLeast hn hrun
    obtain ⟨-, haligned, hfit, hoffer⟩ := nextRun_eq_some hrun
    rw [← Nat.zero_add (pagesSpanning length)] at hoffer
    have hpages : (mapFreshPages base.pageNumber writable user 0 (pagesSpanning length)).Meets gap
        v _ _ := mapFreshPages_meets hv ht hr (.refl hv base.pageNumber)
          (fun p hle hlt => absurd hle (Nat.not_le.mpr hlt)) hoffer
    rw [Nat.zero_add] at hpages
    refine Call.Meets.bind (hpages.mono (fun _ _ => id) ?_) ?_
    · rintro e w ⟨rfl, hw, hscarce⟩
      exact ⟨hw, .outOfMemory h0 hfirst hscarce⟩
    · rintro _ w ⟨hw, hz⟩
      exact Call.record_bind_meets (by rintro ⟨⟩)
        (Call.pure_meets ⟨hw, hz, h0, hfirst, haligned, hfit⟩)

theorem unmap_eq (va : VirtualAddress) {length : Nat} (h0 : length ≠ 0)
    (hmax : length + va.offset.toNat ≤ maxLength) :
    unmap va length = (do
      let pages := pagesSpanning (length + va.offset.toNat)
      (unassign va.pageNumber pages).adapt MappingError.ofPaging
      Call.record (.range (.unmapped pages va.page))) := by
  have hadd : checkedAdd length va.offset.toNat = some (length + va.offset.toNat) :=
    checkedAdd_eq_some_iff.mpr ⟨rfl, hmax⟩
  unfold unmap
  rw [if_neg h0, hadd]
  rfl

theorem unmap_meets (hv : v.Sound) (va : VirtualAddress) (length : Nat) :
    (unmap va length).Meets gap v
      (fun _ w => length ≠ 0 ∧ length + va.offset.toNat ≤ maxLength ∧
        Unassigned v w va.pageNumber (pagesSpanning (length + va.offset.toNat)))
      fun _ w => w = v := by
  unfold unmap
  dsimp only
  split
  · exact Call.throw_bind_meets rfl
  next h0 =>
  cases hadd : checkedAdd length va.offset.toNat with
  | none => exact Call.throw_meets rfl
  | some span =>
    obtain ⟨hspan, hmax⟩ := checkedAdd_eq_some_iff.mp hadd
    subst hspan
    refine Call.Meets.bind (Call.adapt_meets (unassign_meets hv va.pageNumber
      (pagesSpanning (length + va.offset.toNat)) |>.mono (fun _ _ => id) fun _ _ h => h.1)) ?_
    intro _ w hw
    exact Call.record_meets (by rintro ⟨⟩) ⟨h0, hmax, hw⟩

end Mmu
end PagedKernel
