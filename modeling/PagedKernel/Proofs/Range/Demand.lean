import Mathlib.Order.Interval.Finset.Nat
import PagedKernel.Proofs.Range.Rollback

/-! The frames that fresh pages take from the pool: one for each page, and one for each
slot they touch that has no table yet. -/

namespace PagedKernel.Mmu

variable {v w x : Mmu} {f : Frame} {first m n slot : Nat} {writable user : Bool}
  {new : Nat → TableEntry → Prop}

/-- The slots that a run of pages touches and that have no table. -/
def missingTables (v : Mmu) (first n : Nat) : Finset Nat :=
  ((Finset.Ico first (first + n)).image (· / 1024)).filter fun slot => (v.table? slot).isNone

def newTables (v w : Mmu) : Finset Nat :=
  (Finset.range 1024).filter fun slot => (v.table? slot).isNone && (w.table? slot).isSome

/-- Frames it takes to map a run of pages to frames of their own. -/
def demand (v : Mmu) (first n : Nat) : Nat :=
  n + (v.missingTables first n).card

theorem mem_missingTables_iff :
    slot ∈ v.missingTables first n ↔
      (∃ p, first ≤ p ∧ p < first + n ∧ p / 1024 = slot) ∧ v.table? slot = none := by
  simp only [missingTables, Finset.mem_filter, Finset.mem_image, Finset.mem_Ico,
    Option.isNone_iff_eq_none, and_assoc]

theorem mem_newTables_iff :
    slot ∈ newTables v w ↔ v.table? slot = none ∧ w.table? slot ≠ none := by
  simp only [newTables, Finset.mem_filter, Finset.mem_range, Bool.and_eq_true,
    Option.isNone_iff_eq_none, Option.isSome_iff_ne_none]
  refine and_iff_right_of_imp ?_
  rintro ⟨-, hw⟩
  exact Nat.lt_of_not_le fun hle => hw (table?_eq_none_of_le hle)

theorem missingTables_mono (v : Mmu) (first : Nat) (h : m ≤ n) :
    v.missingTables first m ⊆ v.missingTables first n := by
  intro slot hs
  rw [mem_missingTables_iff] at hs ⊢
  obtain ⟨⟨p, hle, hlt, hp⟩, hnone⟩ := hs
  exact ⟨⟨p, hle, by omega, hp⟩, hnone⟩

theorem demand_mono (v : Mmu) (first : Nat) (h : m ≤ n) : v.demand first m ≤ v.demand first n :=
  Nat.add_le_add h (Finset.card_le_card (v.missingTables_mono first h))

section Borrowing

variable (hv : v.Sound) (hw : w.Sound) (hstep : Step none v w)
  (htables : ∀ s t, v.table? s = some t → w.table? s = some t)
  (hpages : ∀ p, w.held (.page p) = v.held (.page p))

include hv hw hstep htables hpages

omit hv hw in
theorem held_of_borrowing (r : Role) (f : Frame) (hr : v.held r = some f) :
    w.held r = some f := by
  cases r with
  | directory => exact (congrArg some hstep.directory).trans hr
  | table slot => exact htables slot f hr
  | page p => exact (hpages p).trans hr

theorem available_iff_newTables (f : Frame) : v.available f ↔
    w.available f ∨ ∃ slot ∈ newTables v w, w.table? slot = some f := by
  rw [available_iff_of_held hv hw hstep.covers_iff (held_of_borrowing hstep htables hpages)]
  refine or_congr .rfl ⟨?_, ?_⟩
  · rintro ⟨r, hnone, hr⟩
    cases r with
    | directory => cases hnone
    | table slot =>
      have hs : w.table? slot = some f := hr
      exact ⟨slot, mem_newTables_iff.mpr ⟨hnone, hs ▸ Option.some_ne_none f⟩, hs⟩
    | page p =>
      rw [hpages, hnone] at hr
      cases hr
  · rintro ⟨slot, hslot, hr⟩
    exact ⟨.table slot, (mem_newTables_iff.mp hslot).1, hr⟩

theorem available_eq_newTables :
    v.machine.pool.available = w.machine.pool.available + (newTables v w).card := by
  have hgained : ∀ r, r ∈ (newTables v w).image Role.table ↔ v.held r = none ∧ w.held r ≠ none := by
    intro r
    rw [Finset.mem_image]
    cases r with
    | directory => simp [held]
    | table slot => simp [mem_newTables_iff, held]
    | page p => simp [hpages p]
  rw [available_eq_add hv hw hstep.covers_iff (held_of_borrowing hstep htables hpages) hgained,
    Finset.card_image_of_injective _ fun _ _ => Role.table.inj]

theorem available_lt_of_unlinked {missing : Finset Nat} (hnone : ∀ f, ¬ w.available f)
    (hsub : newTables v w ⊆ missing) (hslot : slot ∈ missing) (ht : w.table? slot = none) :
    v.machine.pool.available < missing.card := by
  have hzero : w.machine.pool.available ≤ 0 :=
    FramePool.available_le_card (s := ∅) fun f hf => absurd hf (hnone f)
  have hlt : (newTables v w).card < missing.card := Finset.card_lt_card
    (Finset.ssubset_iff_subset_ne.mpr ⟨hsub, by
      rintro rfl
      exact (mem_newTables_iff.mp hslot).2 ht⟩)
  have hfall := available_eq_newTables hv hw hstep htables hpages
  omega

end Borrowing

theorem newTables_subset (hw : w.Trimmed) (h : ∀ p, (w.leaf p).isPresent = true →
    ¬ (first ≤ p ∧ p < first + n) → (v.leaf p).isPresent = true) :
    newTables v w ⊆ v.missingTables first n := by
  intro slot hslot
  obtain ⟨hnone, hsome⟩ := mem_newTables_iff.mp hslot
  obtain ⟨table, hs⟩ := Option.ne_none_iff_exists'.mp hsome
  obtain ⟨i, hi⟩ := hw slot table hs
  obtain ⟨hlt, hp⟩ := mem_presentBelow_iff.mp hi
  have hslot : (1024 * slot + i) / 1024 = slot := by omega
  have hin : first ≤ 1024 * slot + i ∧ 1024 * slot + i < first + n := by
    refine Classical.byContradiction fun hout => ?_
    have hold := h _ hp hout
    rw [leaf_of_unlinked (by rw [hslot, hnone])] at hold
    cases hold
  exact mem_missingTables_iff.mpr ⟨⟨_, hin.1, hin.2, hslot⟩, hnone⟩

theorem newTables_eq_of_present (hw : w.Trimmed) (h : ∀ p, (w.leaf p).isPresent = true →
    ¬ (first ≤ p ∧ p < first + n) → (v.leaf p).isPresent = true)
    (hall : ∀ p, first ≤ p → p < first + n → (w.leaf p).isPresent = true) :
    newTables v w = v.missingTables first n := by
  refine Finset.Subset.antisymm (newTables_subset hw h) fun slot hslot => ?_
  obtain ⟨⟨p, hle, hlt, rfl⟩, hnone⟩ := mem_missingTables_iff.mp hslot
  obtain ⟨table, hs⟩ := table?_of_present (hall p hle hlt)
  exact mem_newTables_iff.mpr ⟨hnone, hs ▸ Option.some_ne_none table⟩

namespace Grown

theorem newTables_eq (ht : v.Trimmed) (h : Grown user new v w first n) :
    newTables v w = v.missingTables first n :=
  newTables_eq_of_present (h.trimmed ht) (fun p hp hout => h.leaf p hout ▸ hp)
    fun p hle hlt => (h.mapped p hle hlt).2

theorem table?_eq_none_iff (ht : v.Trimmed) (h : Grown user new v w first n) :
    w.table? slot = none ↔ v.table? slot = none ∧ slot ∉ v.missingTables first n := by
  rw [← h.newTables_eq ht, mem_newTables_iff]
  constructor
  · intro hw
    refine ⟨?_, fun hn => hn.2 hw⟩
    cases hs : v.table? slot with
    | none => rfl
    | some table => exact hw ▸ (h.tables slot table hs).symm
  · rintro ⟨hv, hn⟩
    exact Classical.byContradiction fun hw => hn ⟨hv, hw⟩

theorem demand_add (ht : v.Trimmed) (h : Grown user new v w first m) (n : Nat) :
    v.demand first (m + n) = v.demand first m + w.demand (first + m) n := by
  have hsplit : v.missingTables first (m + n) =
      v.missingTables first m ∪ w.missingTables (first + m) n := by
    ext slot
    simp only [Finset.mem_union, mem_missingTables_iff, h.table?_eq_none_iff ht]
    constructor
    · rintro ⟨⟨p, hle, hlt, hp⟩, hnone⟩
      by_cases hm : ∃ p, first ≤ p ∧ p < first + m ∧ p / 1024 = slot
      · exact .inl ⟨hm, hnone⟩
      · refine .inr ⟨⟨p, ?_, by omega, hp⟩, hnone, fun hin => hm hin.1⟩
        exact Nat.le_of_not_lt fun hlt' => hm ⟨p, hle, hlt', hp⟩
    · rintro (⟨⟨p, hle, hlt, hp⟩, hnone⟩ | ⟨⟨p, hle, hlt, hp⟩, hnone, -⟩)
      · exact ⟨⟨p, hle, by omega, hp⟩, hnone⟩
      · exact ⟨⟨p, by omega, by omega, hp⟩, hnone⟩
  have hapart : Disjoint (v.missingTables first m) (w.missingTables (first + m) n) := by
    rw [Finset.disjoint_left]
    intro slot hs hs'
    exact ((h.table?_eq_none_iff ht).mp (mem_missingTables_iff.mp hs').2).2 hs
  rw [demand, demand, demand, hsplit, Finset.card_union_of_disjoint hapart]
  omega

theorem held_kept (h : Grown user new v w first n) (r : Role) (f : Frame)
    (hr : v.held r = some f) : w.held r = some f := by
  cases r with
  | directory => exact (congrArg some h.step.directory).trans hr
  | table slot => exact h.tables slot f hr
  | page p => exact (h.pages p f hr).1

theorem available_before (hv : v.Sound) (h : Grown user new v w first n) {f : Frame}
    (hf : w.available f) : v.available f :=
  (available_iff_of_held hv h.sound h.step.covers_iff h.held_kept).mpr (.inl hf)

theorem held_page_before (hv : v.Sound) (h : Grown user new v w first n) {p : Nat}
    (hle : first ≤ p) (hlt : p < first + n) : v.held (.page p) = none := by
  simp only [held, hv.offered (h.before p hle hlt), Bool.false_and, Bool.false_eq_true, if_false]

end Grown

def FreshEntry (writable user : Bool) (_ : Nat) (e : TableEntry) : Prop :=
  ∃ f, e = .ofFrame f (.leaf writable user false)

namespace Grown

variable (h : Grown user (FreshEntry writable user) v w first n)

include h

theorem held_page {p : Nat} (hle : first ≤ p) (hlt : p < first + n) :
    ∃ f, w.leaf p = .ofFrame f (.leaf writable user false) ∧ w.held (.page p) = some f := by
  obtain ⟨⟨f, hf⟩, -⟩ := h.mapped p hle hlt
  refine ⟨f, hf, held_page_eq_some.mpr ?_⟩
  rw [hf]
  exact ⟨rfl, rfl, rfl⟩

theorem mem_gained_iff (hv : v.Sound) (ht : v.Trimmed) (r : Role) :
    r ∈ (Finset.Ico first (first + n)).image Role.page ∪
        (v.missingTables first n).image Role.table ↔ v.held r = none ∧ w.held r ≠ none := by
  simp only [Finset.mem_union, Finset.mem_image]
  cases r with
  | directory => simp [held]
  | table slot =>
    rw [← h.newTables_eq ht]
    simp [mem_newTables_iff, held]
  | page p =>
    simp only [Finset.mem_Ico, Role.page.injEq, exists_eq_right, reduceCtorEq, and_false,
      exists_false, or_false]
    by_cases hp : first ≤ p ∧ p < first + n
    · obtain ⟨f, -, hf⟩ := h.held_page hp.1 hp.2
      exact iff_of_true hp ⟨h.held_page_before hv hp.1 hp.2, hf ▸ Option.some_ne_none f⟩
    · refine iff_of_false hp fun hr => hr.2 ?_
      rw [← hr.1]
      simp only [held, h.leaf p hp]

theorem available_eq (hv : v.Sound) (ht : v.Trimmed) :
    v.machine.pool.available = w.machine.pool.available + v.demand first n := by
  rw [available_eq_add hv h.sound h.step.covers_iff h.held_kept (h.mem_gained_iff hv ht),
    Finset.card_union_of_disjoint, Finset.card_image_of_injective _ fun _ _ => Role.page.inj,
    Finset.card_image_of_injective _ fun _ _ => Role.table.inj, Nat.card_Ico, demand]
  · omega
  · simp only [Finset.disjoint_left, Finset.mem_image]
    rintro _ ⟨p, -, rfl⟩ ⟨slot, -, ⟨⟩⟩

theorem scarce (hv : v.Sound) (ht : v.Trimmed) (hm : n < m)
    (hw : w.machine.pool.available < w.demand (first + n) 1) :
    v.machine.pool.available < v.demand first m :=
  calc v.machine.pool.available
      = w.machine.pool.available + v.demand first n := h.available_eq hv ht
    _ < v.demand first n + w.demand (first + n) 1 := by omega
    _ = v.demand first (n + 1) := (h.demand_add ht 1).symm
    _ ≤ v.demand first m := v.demand_mono first hm

end Grown

def Zeroed (v : Mmu) (first n : Nat) : Prop :=
  ∀ p, first ≤ p → p < first + n →
    ∃ f, v.held (.page p) = some f ∧ v.machine.ram.installed f ∧ v.machine.ram.words f = .zero

theorem Zeroed.append (h : v.Zeroed first m) (hstep : Step none v w) (hpages : PagesKept v w)
    (h' : w.Zeroed (first + m) n) : w.Zeroed first (m + n) := by
  intro p hle hlt
  by_cases hp : p < first + m
  · obtain ⟨f, hf, hi, hz⟩ := h p hle hp
    obtain ⟨hw, hwords⟩ := hpages p f hf
    exact ⟨f, hw, (hstep.installed f).mpr hi, hwords.trans hz⟩
  · exact h' p (by omega) (by omega)

end PagedKernel.Mmu
