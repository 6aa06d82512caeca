import PagedKernel.Proofs.Range.Demand
import PagedKernel.Range.Identity

/-! Identity maps. They fill absent pages with the frame of their own number and
leave all others alone, whether or not the request is completed. -/

namespace PagedKernel.Mmu

variable {v w x : Mmu} {gap : Prop} {inside : Nat → Prop} {writable : Bool} {first n : Nat}

def presentPages (v : Mmu) : Finset Nat :=
  (Finset.range pageCount).filter fun p => (v.leaf p).isPresent = true

theorem mem_presentPages {p : Nat} : p ∈ v.presentPages ↔ (v.leaf p).isPresent = true := by
  simp only [presentPages, Finset.mem_filter, Finset.mem_range]
  exact and_iff_right_of_imp lt_of_present

theorem card_presentPages_le (v : Mmu) : v.presentPages.card ≤ pageCount := by
  refine Nat.le_trans (Finset.card_filter_le _ _) (Nat.le_of_eq ?_)
  exact Finset.card_range pageCount

theorem le_maxLength_of_presentPages {n : Nat} (h : n ≤ v.presentPages.card) : n ≤ maxLength :=
  Nat.le_trans h (Nat.le_trans v.card_presentPages_le (by decide))

theorem Assigned.presentPages {page : Nat} {e : TableEntry} (h : Assigned v w page e)
    (he : e.isPresent = true) :
    w.presentPages.card = v.presentPages.card + 1 := by
  have hinsert : w.presentPages = insert page v.presentPages := by
    ext p
    rw [Finset.mem_insert, mem_presentPages, mem_presentPages, h.leaf]
    by_cases hpage : p = page
    · simp only [hpage, if_true, he, true_or]
    · simp only [hpage, if_false, false_or]
  have hnew : page ∉ v.presentPages := by
    rw [mem_presentPages, h.absent]
    exact Bool.false_ne_true
  rw [hinsert, Finset.card_insert_of_notMem hnew]

/-- What identity maps of pages `inside` a range change. -/
structure Identified (inside : Nat → Prop) (writable : Bool) (v w : Mmu) : Prop where
  sound : w.Sound
  step : Step none v w
  tables : ∀ s t, v.table? s = some t → w.table? s = some t
  trimmed : v.Trimmed → w.Trimmed
  uniform : v.Uniform false → w.Uniform false
  page : ∀ p, (w.leaf p = v.leaf p ∧ w.space.isAvailable p = v.space.isAvailable p) ∨
    (inside p ∧ (v.leaf p).isPresent = false ∧ w.space.isAvailable p = false ∧
      ∃ f : Frame, f.index.val = p ∧ w.leaf p = .ofFrame f (.leaf writable false true))

namespace Identified

theorem refl (hv : v.Sound) : Identified inside writable v v where
  sound := hv
  step := .refl v
  tables _ _ := id
  trimmed := id
  uniform := id
  page _ := .inl ⟨rfl, rfl⟩

theorem kept (h : Identified inside writable v w) {p : Nat} (hp : (v.leaf p).isPresent = true) :
    w.leaf p = v.leaf p := by
  rcases h.page p with hk | hn
  · exact hk.1
  · rw [hn.2.1] at hp
    cases hp

theorem outside (h : Identified inside writable v w) {p : Nat} (hp : ¬ inside p) :
    w.leaf p = v.leaf p ∧ w.space.isAvailable p = v.space.isAvailable p :=
  (h.page p).resolve_right fun hn => hp hn.1

theorem trans (h : Identified inside writable v w) (h' : Identified inside writable w x) :
    Identified inside writable v x where
  sound := h'.sound
  step := h.step.trans h'.step
  tables s t ht := h'.tables s t (h.tables s t ht)
  trimmed ht := h'.trimmed (h.trimmed ht)
  uniform hu := h'.uniform (h.uniform hu)
  page p := by
    rcases h'.page p with ⟨hleaf, hoffer⟩ | ⟨hin, ha, hoffer, hnew⟩
    · rw [hleaf, hoffer]
      exact h.page p
    · rcases h.page p with ⟨hleaf, -⟩ | ⟨-, -, -, f, -, hf⟩
      · exact .inr ⟨hin, hleaf ▸ ha, hoffer, hnew⟩
      · rw [hf] at ha
        cases ha

theorem mono {inside' : Nat → Prop} (h : Identified inside writable v w)
    (hi : ∀ p, inside p → inside' p) : Identified inside' writable v w where
  sound := h.sound
  step := h.step
  tables := h.tables
  trimmed := h.trimmed
  uniform := h.uniform
  page p := (h.page p).imp_right (And.imp_left (hi p))

end Identified

/-- A page that is present maps the frame of its own number. -/
def Own (v : Mmu) (p : Nat) : Prop :=
  (v.leaf p).isPresent = true → (v.leaf p).frame.index.val = p

/-- The pages of a range that map a frame other than their own. -/
def Conflicts (v : Mmu) (range : Set Nat) : Set Nat :=
  {p ∈ range | ¬ v.Own p}

theorem firstConflict_meets (hv : v.Sound) (h : first + n ≤ pageCount) :
    (firstConflict first n).Meets gap v fun found w => w = v ∧
      match found with
      | none => v.Conflicts (Set.Ico first (first + n)) = ∅
      | some page => IsLeast (v.Conflicts (Set.Ico first (first + n))) page.index.val := by
  induction n generalizing first with
  | zero =>
    refine Op.pure_meets ⟨rfl, Set.eq_empty_of_forall_notMem ?_⟩
    rintro p ⟨⟨hle, hlt⟩, -⟩
    omega
  | succ n ih =>
    have hfirst : first < pageCount := by omega
    have hrest : first + 1 + n ≤ pageCount := by omega
    refine (Op.ofExcept_gives (Page.ofIndex_eq_ok hfirst)).bind ?_
    refine (entry_gives hv _).bind ?_
    rw [Page.base_pageNumber]
    split
    · next hp =>
      simp only [Bool.and_eq_true, bne_iff_ne, ne_eq] at hp
      refine Op.pure_meets ⟨rfl, ⟨⟨Nat.le_refl _, ?_⟩, fun hown => hp.2 ?_⟩, fun p hp => hp.1.1⟩
      · change first < first + (n + 1)
        omega
      · exact FramePool.index_eq_iff.mp (hown hp.1)
    · next hp =>
      have hown : v.Own first := by
        intro hpresent
        simp only [hpresent, Bool.true_and, bne_iff_ne, ne_eq, Decidable.not_not] at hp
        rw [hp]
      have hsame : v.Conflicts (Set.Ico first (first + (n + 1))) =
          v.Conflicts (Set.Ico (first + 1) (first + 1 + n)) := by
        ext p
        refine ⟨fun ⟨⟨hle, hlt⟩, hno⟩ => ⟨⟨?_, by omega⟩, hno⟩,
          fun ⟨⟨hle, hlt⟩, hno⟩ => ⟨⟨by omega, by omega⟩, hno⟩⟩
        refine Nat.lt_of_le_of_ne hle ?_
        rintro rfl
        exact hno hown
      rw [hsame]
      exact ih hrest

theorem Assigned.identified {f : Frame} (hi : inside f.index.val)
    (ha : (v.leaf f.index.val).isPresent = false)
    (h : Assigned v w f.index.val (.ofFrame f (.leaf writable false true))) :
    Identified inside writable v w where
  sound := h.sound
  step := h.step
  tables := h.tables
  trimmed := h.trimmed rfl
  uniform := h.uniform
  page p := by
    rw [h.leaf, h.offered]
    by_cases hp : p = f.index.val
    · subst hp
      rw [if_pos rfl, if_pos rfl]
      exact .inr ⟨hi, ha, rfl, f, rfl, rfl⟩
    · rw [if_neg hp, if_neg hp]
      exact .inl ⟨rfl, rfl⟩

theorem Identified.held_page (h : Identified inside writable v w) (p : Nat) :
    w.held (.page p) = v.held (.page p) := by
  rcases h.page p with ⟨hleaf, -⟩ | ⟨-, habsent, -, f, -, hleaf⟩
  · simp only [held, hleaf]
  · simp only [held, hleaf, habsent]
    rfl

/-- A request that ran out of frames at a page: those before it are mapped. -/
structure CutAt (first n : Nat) (writable : Bool) (v w : Mmu) (page : Nat) : Prop where
  range : page ∈ Set.Ico first (first + n)
  identified : Identified (· ∈ Set.Ico first page) writable v w
  present : ∀ p ∈ Set.Ico first page, (w.leaf p).isPresent = true
  absent : (w.leaf page).isPresent = false
  unlinked : w.table? (page / 1024) = none
  empty : ∀ f, ¬ w.available f

structure Filled (first n : Nat) (writable : Bool) (v w : Mmu) (count : Nat) : Prop where
  identified : Identified (· ∈ Set.Ico first (first + n)) writable v w
  present : ∀ p ∈ Set.Ico first (first + n), (w.leaf p).isPresent = true
  counted : count + v.presentPages.card = w.presentPages.card

/-! What is done to the page in front goes before what is done to the rest. -/

section Front

variable (hone : Identified (· = first) writable v w) (hfirst : (w.leaf first).isPresent = true)

include hone hfirst

theorem CutAt.cons {page : Nat} (h : CutAt (first + 1) n writable w x page) :
    CutAt first (n + 1) writable v x page := by
  obtain ⟨hle, hlt⟩ := h.range
  have hfront : Identified (· ∈ Set.Ico first page) writable v w :=
    hone.mono fun p hp => ⟨Nat.le_of_eq hp.symm, by omega⟩
  refine ⟨⟨by omega, by omega⟩, hfront.trans (h.identified.mono fun p hp => ⟨?_, hp.2⟩), ?_,
    h.absent, h.unlinked, h.empty⟩
  · exact Nat.le_of_lt hp.1
  · rintro p ⟨hpl, hpu⟩
    rcases Nat.eq_or_lt_of_le hpl with rfl | hgt
    · rw [h.identified.kept hfirst]
      exact hfirst
    · exact h.present p ⟨hgt, hpu⟩

theorem Filled.cons {count total : Nat} (hcount : count + v.presentPages.card = w.presentPages.card)
    (h : Filled (first + 1) n writable w x total) :
    Filled first (n + 1) writable v x (count + total) := by
  have hfront : Identified (· ∈ Set.Ico first (first + (n + 1))) writable v w :=
    hone.mono fun p hp => ⟨Nat.le_of_eq hp.symm, by omega⟩
  have htotal := h.counted
  refine ⟨hfront.trans (h.identified.mono fun p hp => ⟨?_, ?_⟩), ?_, by omega⟩
  · exact Nat.le_of_lt hp.1
  · have hlt := hp.2
    omega
  · rintro p ⟨hpl, hpu⟩
    rcases Nat.eq_or_lt_of_le hpl with rfl | hgt
    · rw [h.identified.kept hfirst]
      exact hfirst
    · exact h.present p ⟨hgt, by omega⟩

end Front

theorem identityPage_meets (hv : v.Sound)
    (hr : ∀ f, v.available f → v.machine.ram.installed f ∨ gap) (writable : Bool)
    (hpage : first < pageCount) (h0 : first ≠ 0) (ha : (v.leaf first).isPresent = false) :
    Call.Meets gap ((assignBorrowed (Frame.mk ⟨first, hpage⟩).base (Page.mk ⟨first, hpage⟩).base
        writable).adapt MappingError.ofPaging) v
      (fun _ w => Identified (· = first) writable v w ∧ (w.leaf first).isPresent = true ∧
        1 + v.presentPages.card = w.presentPages.card)
      fun e w => w = v ∧ e = .outOfMemory ∧ v.table? (first / 1024) = none ∧
        ∀ f, ¬ v.available f := by
  have hrun := assign_meets hv hr (Frame.mk ⟨first, hpage⟩).base (Page.mk ⟨first, hpage⟩).base
    (.leaf writable false true) nofun
  rw [Frame.base_frame, Page.base_pageNumber] at hrun
  refine Call.adapt_meets (hrun.mono ?_ ?_)
  · intro _ w hw
    refine ⟨Assigned.identified (f := ⟨⟨first, hpage⟩⟩) rfl ha hw, ?_, ?_⟩
    · rw [hw.leaf, if_pos rfl]
      rfl
    · rw [hw.presentPages rfl, Nat.add_comm]
  · rintro e w ⟨rfl, he⟩
    cases he with
    | nullPage h =>
      rw [Page.base_pageNumber] at h
      exact absurd h h0
    | alreadyMapped _ h =>
      rw [Page.base_pageNumber, ha] at h
      cases h
    | outOfFrames _ _ ht hnone =>
      rw [Page.base_pageNumber] at ht
      exact ⟨rfl, rfl, ht, hnone⟩

theorem mapIdentityPages_meets (hv : v.Sound)
    (hr : ∀ f, v.available f → v.machine.ram.installed f ∨ gap) {mapped : Nat} (h0 : first ≠ 0)
    (h : first + n ≤ pageCount) (hm : mapped ≤ v.presentPages.card) :
    (mapIdentityPages writable mapped first n).Meets gap v
      (fun total w => ∃ count, total = mapped + count ∧ Filled first n writable v w count)
      fun e w => e = .outOfMemory ∧ ∃ page, CutAt first n writable v w page := by
  induction n generalizing v mapped first with
  | zero =>
    refine Call.pure_meets ⟨0, rfl, .refl hv, ?_, Nat.zero_add _⟩
    rintro p ⟨hle, hlt⟩
    omega
  | succ n ih =>
    have hfirst : first < pageCount := by omega
    have hrest : first + 1 + n ≤ pageCount := by omega
    unfold mapIdentityPages
    refine (Op.ofExcept_gives (Page.ofIndex_eq_ok hfirst)).lift_bind ?_
    refine (entry_gives hv _).lift_bind ?_
    rw [Page.base_pageNumber]
    split
    · next hp =>
      refine (ih hv hr (Nat.succ_ne_zero _) hrest hm).mono ?_ ?_
      · rintro total w ⟨count, rfl, hw⟩
        exact ⟨count, rfl, Nat.zero_add count ▸ hw.cons (.refl hv) hp (Nat.zero_add _)⟩
      · rintro e w ⟨rfl, page, hw⟩
        exact ⟨rfl, page, hw.cons (.refl hv) hp⟩
    · next hp =>
      have ha : (v.leaf first).isPresent = false := Bool.eq_false_iff.mpr hp
      refine (Op.ofExcept_gives (Frame.ofIndex_eq_ok hfirst)).lift_bind ?_
      have hone := identityPage_meets hv hr writable hfirst h0 ha
      refine Call.Meets.bind (hone.mono (fun _ _ => id) ?_) ?_
      · rintro e w ⟨rfl, rfl, ht, hnone⟩
        refine ⟨rfl, first, ⟨Nat.le_refl _, by omega⟩, .refl hv, ?_, ha, ht, hnone⟩
        rintro p ⟨hle, hlt⟩
        omega
      · rintro - w ⟨hone, hpresent, hcount⟩
        have hmore : mapped + 1 ≤ w.presentPages.card := by omega
        have hreach : ∀ f, w.available f → w.machine.ram.installed f ∨ gap := by
          intro f hf
          rw [hone.step.installed]
          exact hr f ((available_iff_newTables hv hone.sound hone.step hone.tables hone.held_page
            f).mpr (.inl hf))
        refine (Op.ofExcept_gives (lengthSum_eq_ok (le_maxLength_of_presentPages hmore))).lift_bind
          ((ih hone.sound hreach (Nat.succ_ne_zero _) hrest hmore).mono ?_ ?_)
        · rintro total x ⟨count, rfl, hx⟩
          exact ⟨1 + count, Nat.add_assoc .., hx.cons hone hpresent hcount⟩
        · rintro e x ⟨rfl, page, hx⟩
          exact ⟨rfl, page, hx.cons hone hpresent⟩

def InIdentity (pa : PhysicalAddress) (size p : Nat) : Prop :=
  (identityPages pa size).1 ≤ p ∧ p < (identityPages pa size).2

theorem InIdentity.bounds {pa : PhysicalAddress} {size p : Nat} (h : InIdentity pa size p) :
    pa.toNat / 4096 ≤ p ∧ p * 4096 < pa.toNat + size := by
  have hsum := pa.pageIndex_mul_add_offset
  have hindex : pa.pageIndex = pa.toNat / 4096 := rfl
  obtain ⟨hle, hlt⟩ := h
  simp only [identityPages, pagesTouched, pagesSpanning, saturatingAdd] at hle hlt
  omega

theorem inIdentity_of_le {pa : PhysicalAddress} {size p : Nat} (h0 : p ≠ 0) (hp : p < pageCount)
    (hle : pa.toNat ≤ p * 4096) (hlt : p * 4096 < pa.toNat + size)
    (hsize : size ≤ 4294967296) : InIdentity pa size p := by
  have hsum := pa.pageIndex_mul_add_offset
  have hoffset : pa.pageOffset.toNat < 4096 := UInt32.lt_iff_toNat_lt.mp pa.offset_lt
  have htouched : pagesTouched pa.toMemoryAddress size =
      pagesSpanning (size + pa.pageOffset.toNat) := by
    rw [pagesTouched, saturatingAdd_of_le]
    simp only [maxLength]
    omega
  have hspan : p - pa.pageIndex < pagesSpanning (size + pa.pageOffset.toNat) := by
    rw [pagesSpanning]
    omega
  constructor
  · exact Nat.max_le.mpr ⟨by omega, Nat.pos_of_ne_zero h0⟩
  · simp only [identityPages, htouched]
    omega

theorem setOf_inIdentity (pa : PhysicalAddress) (size : Nat) : {p | InIdentity pa size p} =
    Set.Ico (identityPages pa size).1 ((identityPages pa size).1 +
      ((identityPages pa size).2 - (identityPages pa size).1)) := by
  ext p
  simp only [InIdentity, Set.mem_ofPred_eq, Set.mem_Ico]
  omega

theorem identityPages_le (pa : PhysicalAddress) (size : Nat) : (identityPages pa size).1 +
    ((identityPages pa size).2 - (identityPages pa size).1) ≤ pageCount := by
  have hstop : (identityPages pa size).2 ≤ pageCount := Nat.min_le_right _ _
  have hstart : (identityPages pa size).1 ≤ pageCount :=
    Nat.max_le.mpr ⟨Nat.le_of_lt pa.pageIndex_lt, by decide⟩
  omega

theorem mapIdentity_settles (hv : v.Sound)
    (hr : ∀ f, v.available f → v.machine.ram.installed f ∨ gap) (pa : PhysicalAddress)
    (size : Nat) (writable : Bool) :
    (mapIdentity pa size writable).Meets gap v
      (fun mapped w => v.Conflicts {p | InIdentity pa size p} = ∅ ∧
        Filled (identityPages pa size).1 ((identityPages pa size).2 - (identityPages pa size).1)
          writable v w mapped)
      fun e w => (∃ page : Page, e = .paging (.alreadyMapped page.base) ∧ w = v ∧
          IsLeast (v.Conflicts {p | InIdentity pa size p}) page.index.val) ∨
        e = .outOfMemory ∧ v.Conflicts {p | InIdentity pa size p} = ∅ ∧ ∃ page,
          CutAt (identityPages pa size).1
            ((identityPages pa size).2 - (identityPages pa size).1) writable v w page := by
  have hfit := identityPages_le pa size
  have h0 : (identityPages pa size).1 ≠ 0 := Nat.ne_of_gt (Nat.le_max_right _ _)
  rw [setOf_inIdentity]
  unfold mapIdentity
  refine Call.lift_bind_meets (firstConflict_meets hv hfit) ?_
  rintro found w ⟨rfl, hfound⟩
  cases found with
  | some page => exact Call.throw_bind_meets (.inl ⟨page, rfl, rfl, hfound⟩)
  | none =>
    refine Call.Meets.bind ((mapIdentityPages_meets hv hr h0 hfit (Nat.zero_le _)).mono
      (fun _ _ => id) ?_) ?_
    · rintro e w ⟨rfl, hw⟩
      exact .inr ⟨rfl, hfound, hw⟩
    · rintro mapped x ⟨count, rfl, hx⟩
      rw [Nat.zero_add]
      exact Call.record_bind_meets (by rintro ⟨⟩) (Call.pure_meets ⟨hfound, hx⟩)

theorem Identified.own {range : Set Nat} (h : Identified inside writable v w)
    (hnone : v.Conflicts range = ∅) {p : Nat} (hp : p ∈ range)
    (hpresent : (w.leaf p).isPresent = true) : (w.leaf p).frame.index.val = p := by
  rcases h.page p with ⟨hleaf, -⟩ | ⟨-, -, -, f, hf, hleaf⟩
  · rw [hleaf] at hpresent ⊢
    exact Classical.byContradiction fun hno =>
      Set.eq_empty_iff_forall_notMem.mp hnone p ⟨hp, fun hown => hno (hown hpresent)⟩
  · rw [hleaf]
    exact hf

theorem mapIdentity_meets (hv : v.Sound) (hr : v.Reaches gap) (pa : PhysicalAddress)
    (size : Nat) (writable : Bool) :
    (mapIdentity pa size writable).Meets gap v
      (fun mapped w => Identified (InIdentity pa size) writable v w ∧ (∀ p, InIdentity pa size p →
        (w.leaf p).isPresent = true ∧ (w.leaf p).frame.index.val = p) ∧
        mapped + v.presentPages.card = w.presentPages.card)
      fun _ w => Identified (InIdentity pa size) writable v w := by
  have hmem : ∀ p, InIdentity pa size p ↔ p ∈ Set.Ico (identityPages pa size).1
      ((identityPages pa size).1 + ((identityPages pa size).2 - (identityPages pa size).1)) :=
    fun p => Set.ext_iff.mp (setOf_inIdentity pa size) p
  refine (mapIdentity_settles hv (fun _ => hr.installed) pa size writable).mono ?_ ?_
  · rintro mapped w ⟨hnone, hw⟩
    refine ⟨hw.identified.mono fun p => (hmem p).mpr, fun p hp => ?_, hw.counted⟩
    have hpresent := hw.present p ((hmem p).mp hp)
    exact ⟨hpresent, hw.identified.own hnone hp hpresent⟩
  · rintro e w (⟨page, rfl, rfl, -⟩ | ⟨rfl, -, page, hw⟩)
    · exact .refl hv
    · have hlt := hw.range.2
      exact hw.identified.mono fun p hp => (hmem p).mpr ⟨hp.1, by have := hp.2; omega⟩

end PagedKernel.Mmu
