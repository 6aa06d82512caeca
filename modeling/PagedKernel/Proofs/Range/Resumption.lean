import PagedKernel.Proofs.Host.Landing
import PagedKernel.Proofs.Range.Identity

/-! Identity maps are exact, and can be resumed. A page of the range with a frame other than its
own is found before anything is mapped. Without one, the absent pages of the range are mapped in
order, and a request that runs out of frames leaves a beginning of that behind. Repeating it
goes on from there, and ends with the entries of a request that was never interrupted. -/

namespace PagedKernel.Mmu

variable {v w x u : Mmu} {range part : Set Nat} {writable : Bool} {first n : Nat}
  {pa : PhysicalAddress} {size : Nat} {gap : Prop}

/-- The pages that a range of bytes meets, cut at the end of the space and without page 0. -/
def identityRange (pa : PhysicalAddress) (size : Nat) : Set Nat :=
  {p | p ≠ 0 ∧ ∃ a, pa.toNat ≤ a ∧ a < min (pa.toNat + size) 4294967296 ∧ a / 4096 = p}

def unlinkedSlots (v : Mmu) (range : Set Nat) : Set Nat :=
  {slot | v.table? slot = none ∧ ∃ p ∈ range, p / 1024 = slot}

/-- Every page of a range maps its own frame, those that were absent as borrowed pages of the
kernel. No other page has changed, and the pool has lost the frames of new tables only. -/
structure Completed (range : Set Nat) (writable : Bool) (v w : Mmu) : Prop where
  sound : w.Sound
  trimmed : w.Trimmed
  own : ∀ p ∈ range, (w.leaf p).isPresent = true ∧ (w.leaf p).frame.index.val = p
  fresh : ∀ p ∈ range, (v.leaf p).isPresent = false → w.space.isAvailable p = false ∧
    ∃ f : Frame, f.index.val = p ∧ w.leaf p = .ofFrame f (.leaf writable false true)
  kept : ∀ p, (p ∈ range → (v.leaf p).isPresent = true) →
    w.leaf p = v.leaf p ∧ w.space.isAvailable p = v.space.isAvailable p
  linked : ∀ slot table, v.table? slot = some table → w.table? slot = some table
  available : ∀ f, v.available f ↔
    w.available f ∨ ∃ slot ∈ newTables v w, w.table? slot = some f
  taken : v.machine.pool.available = w.machine.pool.available + (newTables v w).card

/-- The pages of a range before some page of it are done, and there is no frame left. -/
structure CutShort (range : Set Nat) (writable : Bool) (v w : Mmu) (page : Nat) : Prop where
  conflicts : v.Conflicts range = ∅
  inRange : page ∈ range
  before : Completed {p ∈ range | p < page} writable v w
  absent : (w.leaf page).isPresent = false
  empty : ∀ f, ¬ w.available f

/-- How an identity map of a range is answered, and what it leaves behind. -/
inductive IdentityAnswer (range : Set Nat) (writable : Bool) (v : Mmu) :
    Except MappingError Nat → Mmu → Prop where
  | conflict {page : Page} (h : IsLeast (v.Conflicts range) page.index.val) :
    IdentityAnswer range writable v (.error (.paging (.alreadyMapped page.base))) v
  | mapped {w : Mmu} (hnone : v.Conflicts range = ∅)
    (henough : (v.unlinkedSlots range).ncard ≤ v.machine.pool.available)
    (h : Completed range writable v w) :
    IdentityAnswer range writable v (.ok {p ∈ range | (v.leaf p).isPresent = false}.ncard) w
  | cutShort {w : Mmu} {page : Nat}
    (hscarce : v.machine.pool.available < (v.unlinkedSlots range).ncard)
    (h : CutShort range writable v w page) : IdentityAnswer range writable v (.error .outOfMemory) w

/-- Wherever the entries are those of `w` and the frames suffice, the request is completed, with
the entries of every request completed where they were those of `v`. -/
def Resumes (pa : PhysicalAddress) (size : Nat) (writable : Bool) (v w : Mmu) : Prop :=
  ∀ (x : Mmu) (events : Array Event), x.Sound → x.Trimmed → x.leaf = w.leaf →
    (∀ f, x.available f → x.machine.ram.installed f) →
    (x.unlinkedSlots (identityRange pa size)).ncard ≤ x.machine.pool.available →
    ∃ n t, (mapIdentity pa size writable).run ⟨x, events⟩ = .ok (.ok n) t ∧
      ∀ (u : Mmu) (events' : Array Event) n' t', u.Sound → u.Trimmed → u.leaf = v.leaf →
        (mapIdentity pa size writable).run ⟨u, events'⟩ = .ok (.ok n') t' →
        t.state.leaf = t'.state.leaf

theorem IdentityAnswer.cutShort_of_outOfMemory
    (h : IdentityAnswer range writable v (.error .outOfMemory) w) :
    ∃ page, CutShort range writable v w page := by
  cases h with
  | @cutShort _ page _ hcut => exact ⟨page, hcut⟩

theorem identityRange_eq (h0 : size ≠ 0) :
    identityRange pa size = {p | InIdentity pa size p} := by
  have hsum := pa.pageIndex_mul_add_offset
  have hoffset : pa.pageOffset.toNat < 4096 := UInt32.lt_iff_toNat_lt.mp pa.offset_lt
  have hlt := pa.toNat_lt
  ext p
  simp only [identityRange, InIdentity, identityPages, pagesTouched, pagesSpanning, saturatingAdd,
    maxLength, pageCount_value, Set.mem_ofPred_eq]
  constructor
  · rintro ⟨hp, a, hle, ha, rfl⟩
    omega
  · rintro ⟨hle, hp⟩
    exact ⟨by omega, max pa.toNat (p * 4096), by omega, by omega, by omega⟩

theorem ncard_unlinkedSlots (v : Mmu) (first n : Nat) :
    (v.unlinkedSlots (Set.Ico first (first + n))).ncard = (v.missingTables first n).card := by
  rw [← Set.ncard_coe_finset]
  congr 1
  ext slot
  rw [Finset.mem_coe, mem_missingTables_iff]
  simp only [unlinkedSlots, Set.mem_ofPred_eq, Set.mem_Ico, and_assoc]
  exact and_comm

theorem Filled.count_eq {count : Nat} (h : Filled first n writable v w count) :
    count = {p ∈ Set.Ico first (first + n) | (v.leaf p).isPresent = false}.ncard := by
  have hset : {p ∈ Set.Ico first (first + n) | (v.leaf p).isPresent = false} =
      (((Finset.Ico first (first + n)).filter fun p => (v.leaf p).isPresent = false : Finset Nat) :
        Set Nat) := by
    ext p
    simp
  have hsplit : w.presentPages = v.presentPages ∪
      (Finset.Ico first (first + n)).filter fun p => (v.leaf p).isPresent = false := by
    ext p
    rw [Finset.mem_union, mem_presentPages, mem_presentPages, Finset.mem_filter, Finset.mem_Ico]
    constructor
    · intro hp
      rcases h.identified.page p with ⟨hleaf, -⟩ | ⟨hin, habsent, -⟩
      · exact .inl (hleaf ▸ hp)
      · exact .inr ⟨hin, habsent⟩
    · rintro (hp | ⟨hin, -⟩)
      · rw [h.identified.kept hp]
        exact hp
      · exact h.present p hin
  have hapart : Disjoint v.presentPages
      ((Finset.Ico first (first + n)).filter fun p => (v.leaf p).isPresent = false) := by
    refine Finset.disjoint_left.mpr fun p hp hp' => ?_
    rw [mem_presentPages, (Finset.mem_filter.mp hp').2] at hp
    cases hp
  have hcounted := h.counted
  rw [hsplit, Finset.card_union_of_disjoint hapart] at hcounted
  rw [hset, Set.ncard_coe_finset]
  omega

theorem Identified.completed (hv : v.Sound) (ht : v.Trimmed)
    (h : Identified (· ∈ part) writable v w) (hnone : v.Conflicts range = ∅)
    (hpart : part ⊆ range) (hpresent : ∀ p ∈ part, (w.leaf p).isPresent = true) :
    Completed part writable v w where
  sound := h.sound
  trimmed := h.trimmed ht
  own p hp := ⟨hpresent p hp, h.own hnone (hpart hp) (hpresent p hp)⟩
  fresh p hp ha := by
    rcases h.page p with ⟨hleaf, -⟩ | ⟨-, -, hoffer, hnew⟩
    · have hold := hpresent p hp
      rw [hleaf, ha] at hold
      cases hold
    · exact ⟨hoffer, hnew⟩
  kept p hp := by
    refine (h.page p).resolve_right fun hn => ?_
    rw [hp hn.1] at hn
    cases hn.2.1
  linked := h.tables
  available := available_iff_newTables hv h.sound h.step h.tables h.held_page
  taken := available_eq_newTables hv h.sound h.step h.tables h.held_page

theorem Filled.enough {count : Nat} (hv : v.Sound) (ht : v.Trimmed)
    (h : Filled first n writable v w count) :
    (v.missingTables first n).card ≤ v.machine.pool.available := by
  have hi := h.identified
  have hnew : newTables v w = v.missingTables first n := by
    refine newTables_eq_of_present (hi.trimmed ht) (fun p hp hout => ?_) fun p hle hlt =>
      h.present p ⟨hle, hlt⟩
    exact (hi.outside hout).1 ▸ hp
  have htaken := available_eq_newTables hv hi.sound hi.step hi.tables hi.held_page
  rw [hnew] at htaken
  omega

theorem CutAt.scarce {page : Nat} (hv : v.Sound) (ht : v.Trimmed)
    (h : CutAt first n writable v w page) :
    v.machine.pool.available < (v.missingTables first n).card := by
  have hi := h.identified
  obtain ⟨hle, hlt⟩ := h.range
  refine available_lt_of_unlinked hv hi.sound hi.step hi.tables hi.held_page h.empty
    (newTables_subset (hi.trimmed ht) fun p hp hout => ?_)
    (mem_missingTables_iff.mpr ⟨⟨page, hle, hlt, rfl⟩, ?_⟩) h.unlinked
  · exact (hi.outside fun hin => hout ⟨hin.1, Nat.lt_trans hin.2 hlt⟩).1 ▸ hp
  · cases hs : v.table? (page / 1024) with
    | none => rfl
    | some table => exact h.unlinked ▸ (hi.tables _ table hs).symm

theorem mapIdentity_answers (hv : v.Sound) (ht : v.Trimmed)
    (hr : ∀ f, v.available f → v.machine.ram.installed f ∨ gap) (pa : PhysicalAddress)
    (h0 : size ≠ 0) (writable : Bool) :
    Op.Meets gap (mapIdentity pa size writable).run v
      (IdentityAnswer (identityRange pa size) writable v) := by
  refine Op.run_meets ((mapIdentity_settles hv hr pa size writable).mono ?_ ?_)
  all_goals rw [identityRange_eq h0, setOf_inIdentity]
  · rintro mapped w ⟨hnone, hw⟩
    rw [hw.count_eq]
    refine .mapped hnone ?_ (hw.identified.completed hv ht hnone subset_rfl hw.present)
    rw [ncard_unlinkedSlots]
    exact hw.enough hv ht
  · rintro e w (⟨page, rfl, rfl, hpage⟩ | ⟨rfl, hnone, page, hw⟩)
    · exact .conflict hpage
    · obtain ⟨hle, hlt⟩ := hw.range
      have hbefore : {p ∈ Set.Ico (identityPages pa size).1 ((identityPages pa size).1 +
          ((identityPages pa size).2 - (identityPages pa size).1)) | p < page} =
          Set.Ico (identityPages pa size).1 page := by
        ext p
        simp only [Set.mem_ofPred_eq, Set.mem_Ico]
        omega
      refine .cutShort ?_ ⟨hnone, hw.range, ?_, hw.absent, hw.empty⟩
      · rw [ncard_unlinkedSlots]
        exact hw.scarce hv ht
      · rw [hbefore]
        exact hw.identified.completed hv ht hnone
          (fun p hp => ⟨hp.1, Nat.lt_trans hp.2 hlt⟩) hw.present

theorem mapIdentityPages_present (hv : v.Sound) {mapped : Nat} (h : first + n ≤ pageCount)
    (hp : ∀ p ∈ Set.Ico first (first + n), (v.leaf p).isPresent = true) :
    (mapIdentityPages writable mapped first n).Meets gap v (fun total w => total = mapped ∧ w = v)
      fun _ _ => False := by
  induction n generalizing first with
  | zero => exact Call.pure_meets ⟨rfl, rfl⟩
  | succ n ih =>
    have hfirst : first < pageCount := by omega
    unfold mapIdentityPages
    refine (Op.ofExcept_gives (Page.ofIndex_eq_ok hfirst)).lift_bind ?_
    refine (entry_gives hv _).lift_bind ?_
    rw [Page.base_pageNumber, if_pos (hp first ⟨Nat.le_refl _, by omega⟩)]
    exact ih (by omega) fun p hin => hp p ⟨Nat.le_of_lt hin.1, by have := hin.2; omega⟩

theorem Completed.again (h0 : size ≠ 0) (h : Completed (identityRange pa size) writable v w) :
    (mapIdentity pa size writable).Meets gap w (fun mapped x => mapped = 0 ∧ x = w)
      fun _ _ => False := by
  have hfit := identityPages_le pa size
  have hown := h.own
  rw [identityRange_eq h0, setOf_inIdentity] at hown
  unfold mapIdentity
  refine Call.lift_bind_meets (firstConflict_meets h.sound hfit) ?_
  rintro found x ⟨rfl, hfound⟩
  cases found with
  | some page =>
    obtain ⟨⟨hin, hno⟩, -⟩ := hfound
    exact absurd (fun _ => (hown _ hin).2) hno
  | none =>
    refine Call.Meets.bind (mapIdentityPages_present h.sound hfit fun p hp => (hown p hp).1) ?_
    rintro mapped y ⟨rfl, rfl⟩
    exact Call.record_bind_meets (by rintro ⟨⟩) (Call.pure_meets ⟨rfl, rfl⟩)

theorem Completed.leaf_eq {u' x' : Mmu} (h : Completed part writable v w) (hpart : part ⊆ range)
    (hx : x.leaf = w.leaf) (h' : Completed range writable x x') (hu : u.leaf = v.leaf)
    (h'' : Completed range writable u u') : x'.leaf = u'.leaf := by
  funext p
  by_cases hnew : p ∈ range ∧ (v.leaf p).isPresent = false
  · obtain ⟨hin, ha⟩ := hnew
    obtain ⟨-, g, hg, hu'⟩ := h''.fresh p hin (hu ▸ ha)
    -- it was mapped either before the request was cut short, or when that was repeated
    have hx' : ∃ f : Frame, f.index.val = p ∧ x'.leaf p = .ofFrame f (.leaf writable false true) := by
      by_cases hp : p ∈ part
      · obtain ⟨-, hf⟩ := h.fresh p hp ha
        rw [(h'.kept p fun _ => hx ▸ (h.own p hp).1).1, hx]
        exact hf
      · refine (h'.fresh p hin ?_).2
        rw [hx, (h.kept p fun hin => absurd hin hp).1]
        exact ha
    obtain ⟨f, hf, hx'⟩ := hx'
    rw [hx', hu', show f = g from FramePool.index_eq_iff.mp (hf.trans hg.symm)]
  · have hold : p ∈ range → (v.leaf p).isPresent = true :=
      fun hin => Bool.not_eq_false _ ▸ fun ha => hnew ⟨hin, ha⟩
    have hw := (h.kept p fun hp => hold (hpart hp)).1
    rw [(h'.kept p fun hin => by rw [hx, hw]; exact hold hin).1, hx, hw,
      (h''.kept p fun hin => hu ▸ hold hin).1, hu]

theorem CutShort.conflicts_eq {page : Nat} (h : CutShort range writable v w page)
    (hx : x.leaf = w.leaf) : x.Conflicts range = ∅ := by
  refine Set.eq_empty_of_forall_notMem fun p ⟨hin, hno⟩ => hno fun hpresent => ?_
  rw [hx] at hpresent ⊢
  by_cases hp : p < page
  · exact (h.before.own p ⟨hin, hp⟩).2
  · have hkept := (h.before.kept p fun hbefore => absurd hbefore.2 hp).1
    rw [hkept] at hpresent ⊢
    exact Classical.byContradiction fun hne => Set.eq_empty_iff_forall_notMem.mp h.conflicts p
      ⟨hin, fun hown => hne (hown hpresent)⟩

theorem CutShort.resumes {page : Nat} (h : CutShort (identityRange pa size) writable v w page)
    (h0 : size ≠ 0) : Resumes pa size writable v w := by
  intro x events hx htx hleaf hr henough
  have hgap : ∀ f, x.available f → x.machine.ram.installed f ∨ False := fun f hf => .inl (hr f hf)
  obtain ⟨r, t, hrun, hanswer⟩ :=
    (mapIdentity_answers hx htx hgap pa h0 writable).exists_answer events
  have hnone := h.conflicts_eq hleaf
  generalize hw : t.state = x' at hanswer
  cases hanswer with
  | conflict hpage => exact absurd hpage.1 (hnone ▸ Set.notMem_empty _)
  | cutShort hscarce => omega
  | mapped _ _ hdone =>
    refine ⟨_, t, hrun, fun u events' n' t' hu htu hsame hrun' => ?_⟩
    have hanswer' := ((mapIdentity_answers hu htu (fun f _ => .inr trivial) pa h0 writable).post
      hrun').1
    rw [hw]
    generalize t'.state = u' at hanswer'
    cases hanswer' with
    | mapped _ _ hdone' => exact h.before.leaf_eq (fun p hp => hp.1) hleaf hdone hsame hdone'

theorem mapIdentity_exact (hv : v.Sound) (ht : v.Trimmed) (pa : PhysicalAddress) (h0 : size ≠ 0)
    (writable : Bool) (events : Array Event) :
    (∀ r t, (mapIdentity pa size writable).run ⟨v, events⟩ = .ok r t →
      IdentityAnswer (identityRange pa size) writable v r t.state) ∧
    (∀ fault t, (mapIdentity pa size writable).run ⟨v, events⟩ = .error fault t →
      ∃ f, v.available f ∧ ¬ v.machine.ram.installed f) ∧
    (∀ w, Completed (identityRange pa size) writable v w → ∀ events', ∃ t,
      (mapIdentity pa size writable).run ⟨w, events'⟩ = .ok (.ok 0) t ∧ t.state = w) ∧
    ∀ w page, CutShort (identityRange pa size) writable v w page →
      Resumes pa size writable v w := by
  have hanswers : Op.Meets (∃ f, v.available f ∧ ¬ v.machine.ram.installed f)
      (mapIdentity pa size writable).run v (IdentityAnswer (identityRange pa size) writable v) :=
    mapIdentity_answers hv ht (fun _ => v.installed_or_missing) pa h0 writable
  refine ⟨fun r t hrun => (hanswers.post hrun).1, fun fault t hrun => hanswers.of_fault hrun,
    fun w hw events' => ?_, fun w page hcut => hcut.resumes h0⟩
  obtain ⟨r, t, hrun, hpost⟩ := (hw.again h0).exists_answer events'
  cases r with
  | ok mapped =>
    obtain ⟨rfl, hstate⟩ := hpost
    exact ⟨t, hrun, hstate⟩
  | error e => exact hpost.elim

theorem mapIdentity_exact_exhausted : ∃ v w t, SpaceHost.twoPagesSpace = some w ∧
    v = w.withPool .exhausted ∧ v.Sound ∧ v.Trimmed ∧ 8192 ≠ 0 ∧
    (mapIdentity (.ofBits 8384512) 8192 true).run ⟨v, #[]⟩ = .ok (.error .outOfMemory) t ∧
    CutShort (identityRange (.ofBits 8384512) 8192) true v t.state 2048 ∧
    Resumes (.ofBits 8384512) 8192 true v t.state := by
  have hsome : (SpaceHost.twoPagesSpace.any fun w =>
      ((mapIdentity (.ofBits 8384512) 8192 true).run.outcome? (w.withPool .exhausted)).any
        fun (r, t) => r = .error .outOfMemory ∧ (t.state.leaf 2047).isPresent = true) = true := by
    decide +kernel
  obtain ⟨w, hw, hany⟩ := (Option.any_eq_true _ _).mp hsome
  obtain ⟨⟨r, t⟩, houtcome, hr⟩ := (Option.any_eq_true _ _).mp hany
  obtain ⟨rfl, hpresent⟩ := of_decide_eq_true hr
  obtain ⟨hsound, htrimmed⟩ := SpaceHost.twoPagesSpace_sound hw
  have hv : (w.withPool .exhausted).Sound := hsound.withPool FramePool.exhausted_sound fun f hf => by
    rw [FramePool.exhausted, FramePool.isAvailable_filled] at hf
    cases hf
  have hrun := Op.run_of_outcome? houtcome
  have hsize : 8192 ≠ 0 := by decide
  obtain ⟨hanswers, -, -, hresumes⟩ :=
    mapIdentity_exact hv htrimmed (.ofBits 8384512) hsize true #[]
  obtain ⟨page, hcut⟩ := (hanswers _ t hrun).cutShort_of_outOfMemory
  obtain ⟨-, a, hle, hlt, hpage⟩ := hcut.inRange
  have hbounds : (PhysicalAddress.ofBits 8384512).toNat = 8384512 := rfl
  have hne : page ≠ 2047 := fun he => by
    rw [← he, hcut.absent] at hpresent
    cases hpresent
  obtain rfl : page = 2048 := by omega
  exact ⟨_, w, t, hw, rfl, hv, htrimmed, hsize, hrun, hcut, hresumes _ 2048 hcut⟩

end PagedKernel.Mmu
