import PagedKernel.Proofs.Space.Mapping

/-! Unmapping a range of pages. Either every entry of the range was present, and
all of them are zero afterwards, or nothing changes. -/

namespace PagedKernel.Mmu

variable {v w x : Mmu} {f table : Frame} {slot i : EntryIndex} {gap : Prop} {first n : Nat}

/-- What taking down `n` pages from `first` on changes. Tables left without
entries are gone. -/
structure Cleared (v w : Mmu) (first n : Nat) : Prop where
  sound : w.Sound
  step : Step none v w
  leaf : ∀ p, w.leaf p = if first ≤ p ∧ p < first + n then .zero else v.leaf p
  links : Pruned v w
  trimmed : v.Trimmed → w.Trimmed
  uniform : ∀ user, v.Uniform user → w.Uniform user
  guarded : v.Guarded → w.Guarded
  /-- The pages that are left are old ones. -/
  pages : PagesKept w v

namespace Cleared

theorem refl (hv : v.Sound) (first : Nat) : Cleared v v first 0 where
  sound := hv
  step := .refl v
  leaf p := by rw [if_neg (by omega)]
  links := .refl v
  trimmed := id
  uniform _ := id
  guarded := id
  pages := .refl v

theorem trans {m : Nat} (h : Cleared v w first n) (h' : Cleared w x (first + n) m) :
    Cleared v x first (n + m) where
  sound := h'.sound
  step := h.step.trans h'.step
  leaf p := by
    rw [h'.leaf, h.leaf, ← ite_or]
    exact if_congr (by omega) rfl rfl
  links := h.links.trans h'.links
  trimmed ht := h'.trimmed (h.trimmed ht)
  uniform user hu := h'.uniform user (h.uniform user hu)
  guarded hg := h'.guarded (h.guarded hg)
  pages := h'.pages.trans h.pages

theorem tables (h : Cleared v w first n) (s : Nat) (t : Frame) (ht : w.table? s = some t) :
    v.table? s = some t :=
  h.links.table?_eq ht

end Cleared

theorem Sound.vacate {count : Nat} {pool : FramePool} (hv : v.Sound)
    (ht : v.table? slot.val = some table)
    (hp : (v.leaf (1024 * slot.val + i.val)).isPresent = true)
    (hc : count + 1 = (v.presentBelow slot.val).card)
    (hpool : pool = if (v.leaf (1024 * slot.val + i.val)).isBorrowed then v.machine.pool
      else (v.machine.pool.free (v.leaf (1024 * slot.val + i.val)).frame).2) :
    ((v.withPool pool).withEntry table slot i .zero count).Sound ∧
      Step none v ((v.withPool pool).withEntry table slot i .zero count) := by
  obtain ⟨hcov, hs⟩ := hv.clear (i := i) ht hp hc
  have hkept : ∀ g, ¬ v.Covers g →
      (v.withEntry table slot i .zero count).machine.ram.words g = v.machine.ram.words g :=
    fun _ => hv.words_withEntry ht i .zero count
  cases hb : (v.leaf (1024 * slot.val + i.val)).isBorrowed with
  | true =>
    rw [hb, if_pos rfl] at hpool
    subst hpool
    refine ⟨hs, fun _ => Ram.installed_change _, rfl, ?_, hkept⟩
    intro g
    refine (hcov g).trans ?_
    simp [held, hb]
  | false =>
    have hheld := held_page_eq_some.mpr ⟨hp, hb, rfl⟩
    obtain ⟨-, hgive, hgcov⟩ := hs.give (f := (v.leaf (1024 * slot.val + i.val)).frame) <| by
      rw [hcov, hheld]
      exact fun h => h.2 rfl
    rw [hb, if_neg Bool.false_ne_true] at hpool
    subst hpool
    refine ⟨hgive, fun _ => Ram.installed_change _, rfl, ?_, hkept⟩
    intro g
    refine (hgcov g).trans ?_
    rw [hcov, hheld]
    by_cases hg : g = (v.leaf (1024 * slot.val + i.val)).frame
    · simp only [hg, or_true, true_iff, reduceCtorEq, or_false]
      exact ⟨some (.page _), hheld⟩
    · simp [hg, Ne.symm hg]

theorem Released.cleared {count : Nat} {pool : FramePool} (hv : v.Sound)
    (ht : v.table? slot.val = some table)
    (hstep : Step none v ((v.withPool pool).withEntry table slot i .zero count))
    (hw : Released ((v.withPool pool).withEntry table slot i .zero count) w slot.val) :
    Cleared v w (1024 * slot.val + i.val) 1 := by
  have hleaf : ∀ p, w.leaf p = if p = 1024 * slot.val + i.val then .zero else v.leaf p := by
    intro p
    rw [hw.leaf]
    exact leaf_withEntry hv.framed ht .zero count p
  have htable : ((v.withPool pool).withEntry table slot i .zero count).table? = v.table? :=
    table?_withEntry hv.framed ht .zero count
  have hshrink : ∀ s t, w.table? s = some t → v.table? s = some t ∧
      (s = slot.val → (w.presentBelow s).Nonempty) := by
    intro s t h
    rw [hw.tables, htable] at h
    split at h
    · cases h
    · next hne =>
      refine ⟨h, ?_⟩
      rintro rfl
      have hsame : w.presentBelow slot.val = _ := presentBelow_congr fun i _ =>
        congrArg TableEntry.isPresent (congrFun hw.leaf (1024 * slot.val + i))
      rw [hsame]
      exact Finset.nonempty_iff_ne_empty.mpr fun he => hne ⟨rfl, he⟩
  refine ⟨hw.sound, hstep.trans hw.step, ?_, ?_, ?_, ?_, ?_, ?_⟩
  · intro p
    rw [hleaf]
    exact if_congr (by omega) rfl rfl
  · intro s
    rw [← link_withEntry hv.framed ht .zero count, ← htable]
    exact hw.links s
  · intro htr s t h
    by_cases hsl : s = slot.val
    · exact (hshrink s t h).2 hsl
    · have hlt := i.isLt
      simp only [entriesPerTable_value] at hlt
      have hsame : w.presentBelow s = v.presentBelow s := by
        apply presentBelow_congr
        intro k hk
        rw [hleaf, if_neg (by omega)]
      rw [hsame]
      exact htr s t (hshrink s t h).1
  · intro user hu
    apply hw.uniform
    intro s
    rw [htable]
    exact (congrFun (link_withEntry hv.framed ht .zero count) s).trans (hu s)
  · intro hg
    have hlink : ((v.withPool pool).withEntry table slot i .zero count).link = v.link :=
      link_withEntry hv.framed ht .zero count
    refine hw.guarded ⟨fun s => ?_, fun p hp hu => ?_⟩
    · rw [hlink, htable]
      exact hg.links s
    · rw [← hw.leaf, hleaf] at hp hu
      split at hp
      · cases hp
      · next hne =>
        rw [if_neg hne] at hu
        rw [hlink]
        exact hg.user p hp hu
  · refine (PagesKept.symm_of_leaf hw.leaf hw.pages).trans fun p f hf => ?_
    have hheld : v.held (.page p) = some f := by
      have hafter : (v.withEntry table slot i .zero count).held (.page p) = some f := hf
      rw [held_withEntry hv.framed ht] at hafter
      split at hafter
      · cases hafter
      · exact hafter
    refine ⟨hheld, Eq.symm ?_⟩
    exact (Ram.words_change (hv.table_installed ht) _ f).trans (if_neg (hv.page_ne_table hheld ht))

theorem clearEntry_meets {pool : FramePool} (hv : v.Sound) (ht : v.table? slot.val = some table)
    (hp : (v.leaf (1024 * slot.val + i.val)).isPresent = true)
    (hpool : pool = if (v.leaf (1024 * slot.val + i.val)).isBorrowed then v.machine.pool
      else (v.machine.pool.free (v.leaf (1024 * slot.val + i.val)).frame).2) :
    Op.Meets gap (do
      setTableEntry table i .zero
      decrementOccupancy slot
      releaseTableIfEmpty slot) (v.withPool pool) fun _ w =>
        Cleared v w (1024 * slot.val + i.val) 1 ∧
          w.space.virtualPages = v.space.virtualPages := by
  have hmem : i.val ∈ v.presentBelow slot.val := mem_presentBelow_iff.mpr ⟨i.isLt, hp⟩
  obtain ⟨count, hcount⟩ : ∃ count, count + 1 = (v.presentBelow slot.val).card :=
    ⟨_, Nat.sub_add_cancel (Finset.card_pos.mpr ⟨i.val, hmem⟩)⟩
  have hocc : v.space.occupancy.get slot = count + 1 := (hv.occupancy_get slot).trans hcount.symm
  obtain ⟨hs, hstep⟩ := hv.vacate ht hp hcount hpool
  refine (setTableEntry_gives (v := v.withPool pool) (hv.table_installed ht) i .zero).bind ?_
  refine (decrementOccupancy_gives (v := (v.withPool pool).withFrame table fun words =>
    ((PageTable.mk words).set i .zero).words) hocc).bind ?_
  refine (releaseTableIfEmpty_meets hs slot).mono ?_
  intro _ w hw
  refine ⟨hw.cleared hv ht hstep, ?_⟩
  rw [hw.space]
  rfl

theorem unassignPage_meets (hv : v.Sound) {page : Nat} (hp : (v.leaf page).isPresent = true) :
    (unassignPage page).Meets gap v fun _ w =>
      Cleared v w page 1 ∧ w.space.virtualPages = v.space.virtualPages := by
  obtain ⟨slot, i, hsplit, hslot, rfl⟩ := splitPageIndex_of_lt (lt_of_present hp)
  obtain ⟨table, ht⟩ := table?_of_present hp
  rw [← hslot] at ht
  unfold unassignPage
  refine (Op.ofExcept_gives hsplit).bind ?_
  refine (directoryEntry_gives hv.directory_installed slot).bind ?_
  dsimp only
  rw [show (v.link slot.val).table? = some table from ht]
  dsimp only
  refine (tableEntry_gives hv ht i).bind ?_
  cases hb : (v.leaf (1024 * slot.val + i.val)).isBorrowed with
  | true => exact clearEntry_meets hv ht hp (by rw [hb, if_pos rfl])
  | false =>
    have hheld := held_page_eq_some.mpr ⟨hp, hb, rfl⟩
    have hna : v.machine.pool.isAvailable (v.leaf (1024 * slot.val + i.val)).frame = false :=
      Bool.eq_false_iff.mpr (hv.not_available hheld)
    refine (freeFrame_gives v _).bind ?_
    rw [(FramePool.free_of_taken hv.pool hna).1]
    -- the frame goes back before the entry is cleared, which makes no difference afterwards
    exact clearEntry_meets hv ht hp (by rw [hb, if_neg Bool.false_ne_true])

theorem unassignPages_meets (hv : v.Sound) {first : Nat}
    (hp : ∀ p, first ≤ p → p < first + n → (v.leaf p).isPresent = true) :
    (unassignPages first n).Meets gap v fun _ w =>
      Cleared v w first n ∧ w.space.virtualPages = v.space.virtualPages := by
  induction n generalizing v first with
  | zero => exact Op.pure_meets ⟨.refl hv first, rfl⟩
  | succ n ih =>
    refine (unassignPage_meets hv (hp first (by omega) (by omega))).bind ?_
    rintro - w ⟨hw, hpages⟩
    have hrest : ∀ p, first + 1 ≤ p → p < first + 1 + n → (w.leaf p).isPresent = true := by
      intro p hle hlt
      rw [hw.leaf, if_neg (by omega)]
      exact hp p (by omega) (by omega)
    refine (ih hw.sound hrest).mono ?_
    rintro - x ⟨hx, hpages'⟩
    exact ⟨Nat.add_comm 1 n ▸ hw.trans hx, hpages'.trans hpages⟩

def FirstAbsent (v : Mmu) (first n : Nat) : Option Nat → Prop
  | none => ∀ p, first ≤ p → p < first + n → (v.leaf p).isPresent = true
  | some p => first ≤ p ∧ p < first + n ∧ (v.leaf p).isPresent = false ∧
    ∀ q, first ≤ q → q < p → (v.leaf q).isPresent = true

theorem firstAbsent_meets (hv : v.Sound) {first : Nat} (h : first + n ≤ pageCount) :
    (firstAbsent first n).Meets gap v fun found w => w = v ∧ FirstAbsent v first n found := by
  induction n generalizing first with
  | zero => exact Op.pure_meets ⟨rfl, fun p _ _ => by omega⟩
  | succ n ih =>
    have hfirst : first < pageCount := by omega
    refine (Op.ofExcept_gives (Page.ofIndex_eq_ok hfirst)).bind ?_
    refine (entry_gives hv _).bind ?_
    rw [Page.base_pageNumber]
    split
    · next hp =>
      have hrest : first + 1 + n ≤ pageCount := by omega
      refine (ih hrest).mono ?_
      rintro found w ⟨rfl, hf⟩
      refine ⟨rfl, ?_⟩
      cases found with
      | none =>
        intro p hle hlt
        rcases Nat.eq_or_lt_of_le hle with rfl | hgt
        · exact hp
        · exact hf p hgt (by omega)
      | some q =>
        obtain ⟨hle, hlt, ha, hb⟩ := hf
        refine ⟨by omega, by omega, ha, ?_⟩
        intro p hfp hpq
        rcases Nat.eq_or_lt_of_le hfp with rfl | hgt
        · exact hp
        · exact hb p hgt hpq
    · next hp =>
      exact Op.pure_meets ⟨rfl, Nat.le_refl _, by omega, Bool.eq_false_iff.mpr hp,
        fun q h h' => by omega⟩

structure Unassigned (v w : Mmu) (first n : Nat) : Prop extends Cleared v w first n where
  inside : first + n ≤ pageCount
  present : FirstAbsent v first n none
  offered : ∀ p, w.space.isAvailable p =
    if first ≤ p ∧ p < first + n then true else v.space.isAvailable p

inductive UnassignRefused (v : Mmu) (first n : Nat) : PagingError → Prop where
  | outOfRange (h : pageCount < first + n) : UnassignRefused v first n (.outOfRange first n)
  | notPresent {page : Nat} (h : first + n ≤ pageCount) (hp : FirstAbsent v first n (some page)) :
    UnassignRefused v first n (.notPresent page)

theorem Cleared.offer (hv : v.Sound) (hw : Cleared v w first n) (h : first + n ≤ pageCount)
    (hp : FirstAbsent v first n none) (hpages : w.space.virtualPages = v.space.virtualPages) :
    Unassigned v (w.withPages (w.space.virtualPages.fillFrom true first (first + n) h))
      first n := by
  have hnull := hv.null.2
  have hoffer := @isAvailable_fillFrom w true first (first + n) h
  have hs : (w.withPages (w.space.virtualPages.fillFrom true first (first + n) h)).Sound := by
    refine hw.sound.withPages ?_ ?_
    · intro p ha
      rw [hoffer] at ha
      split at ha
      · next hin =>
        rw [hw.leaf, if_pos hin]
        rfl
      · exact hw.sound.offered ha
    · rw [hoffer, if_neg]
      · exact hw.sound.null.1
      · rintro ⟨hle, hlt⟩
        rw [hp 0 hle hlt] at hnull
        cases hnull
  refine ⟨⟨hs, ⟨hw.step.installed, hw.step.directory, ?_, hw.step.kept⟩, hw.leaf, hw.links,
    hw.trimmed, hw.uniform, fun hg => (hw.guarded hg).congr rfl rfl, hw.pages⟩, h, hp, ?_⟩
  · exact hw.step.covers
  · intro p
    rw [hoffer, AddressSpace.isAvailable, AddressSpace.isAvailable, hpages]

theorem unassign_meets (hv : v.Sound) (first n : Nat) :
    (unassign first n).Meets gap v (fun _ w => Unassigned v w first n)
      fun e w => w = v ∧ UnassignRefused v first n e := by
  unfold unassign
  dsimp only
  split
  · next h => exact Call.throw_bind_meets ⟨rfl, .outOfRange h⟩
  next h =>
  have hle : first + n ≤ pageCount := Nat.le_of_not_lt h
  refine Call.lift_bind_meets (firstAbsent_meets hv hle) ?_
  rintro found w ⟨rfl, hf⟩
  cases found with
  | some page => exact Call.throw_bind_meets ⟨rfl, .notPresent hle hf⟩
  | none =>
    refine Call.lift_bind_meets (unassignPages_meets hv hf) ?_
    rintro - x ⟨hx, hpages⟩
    unfold markRange
    rw [dif_pos hle]
    refine (Op.modify_gives _).lift_bind (Call.record_meets (by rintro ⟨⟩) ?_)
    exact hx.offer hv hle hf hpages

theorem unassign_present (hv : v.Sound) (hn : n ≠ 0)
    (hp : ∀ p, first ≤ p → p < first + n → (v.leaf p).isPresent = true) :
    Call.Meets gap (unassign first n) v (fun _ w => Unassigned v w first n) fun _ _ => False := by
  refine (unassign_meets hv first n).mono (fun _ _ => id) ?_
  rintro e w ⟨rfl, he⟩
  cases he with
  | outOfRange h =>
    have hlast := lt_of_present (hp (first + n - 1) (by omega) (by omega))
    omega
  | @notPresent page _ h =>
    obtain ⟨hle, hlt, ha, -⟩ := h
    rw [hp page hle hlt] at ha
    cases ha

end PagedKernel.Mmu
