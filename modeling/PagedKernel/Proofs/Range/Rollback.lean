import PagedKernel.Proofs.Space.Turnover
import PagedKernel.Proofs.Space.Unmapping
import PagedKernel.Range.Fresh

/-! A run of pages that is mapped page by page, and how it is undone. Undoing
leads back to what the space showed before the first page was mapped. -/

namespace PagedKernel.Mmu

variable {user : Bool} {new : Nat → TableEntry → Prop} {v w x : Mmu} {gap : Prop}
  {first n : Nat}

/-- A space shows what it showed before; only free frames may differ in content. -/
structure Restored (user : Bool) (v w : Mmu) : Prop where
  sound : w.Sound
  step : Step none v w
  leaf : w.leaf = v.leaf
  tables : w.table? = v.table?
  offered : w.space.isAvailable = v.space.isAvailable
  uniform : v.Uniform user → w.Uniform user
  pages : PagesKept v w

theorem Restored.refl (hv : v.Sound) : Restored user v v where
  sound := hv
  step := .refl v
  leaf := rfl
  tables := rfl
  offered := rfl
  uniform := id
  pages := .refl v

theorem Restored.trimmed (h : Restored user v w) (ht : v.Trimmed) : w.Trimmed := by
  intro s t hs
  simp only [presentBelow, h.leaf]
  exact ht s t (h.tables ▸ hs)

/-! A restored space is the space before, in every respect but free frames. -/

namespace Restored

theorem space (hv : v.Sound) (h : Restored user v w) : w.space = v.space :=
  hv.space_eq h.sound h.step.directory h.leaf h.offered

theorem noTrace (hv : v.Sound) (h : Restored user v w) : NoTrace v w :=
  h.step.noTrace hv h.sound h.leaf h.tables h.offered

theorem available (hv : v.Sound) (h : Restored user v w) (f : Frame) :
    w.available f ↔ v.available f :=
  (h.noTrace hv).available f

theorem words (hu : v.Uniform user) (h : Restored user v w) {f : Frame} (hf : ¬ v.available f) :
    w.machine.ram.words f = v.machine.ram.words f := by
  by_cases hc : v.Covers f
  · obtain ⟨role, hr⟩ := ((covers_iff v f).mp hc).resolve_left hf
    cases role with
    | directory =>
      obtain rfl : v.space.directory = f := Option.some.inj hr
      change (PageDirectory.mk _).words = (PageDirectory.mk _).words
      refine PageDirectory.words_eq_of_get fun slot => ?_
      have hlink : w.link slot.val = v.link slot.val := by
        rw [h.uniform hu slot.val, hu slot.val, h.tables]
      rwa [link_val, link_val, h.step.directory] at hlink
    | table slot =>
      have ht : v.table? slot = some f := hr
      change (PageTable.mk (w.machine.ram.words f)).words =
        (PageTable.mk (v.machine.ram.words f)).words
      refine PageTable.words_eq_of_get fun i => ?_
      have hi := i.isLt
      simp only [entriesPerTable_value] at hi
      have hslot : (1024 * slot + i.val) / 1024 = slot := by omega
      have hindex : (1024 * slot + i.val) % 1024 = i.val := by omega
      have hleaf := congrFun h.leaf (1024 * slot + i.val)
      rw [leaf_of_table (by rw [hslot, h.tables, ht]), leaf_of_table (by rw [hslot, ht])] at hleaf
      simp only [cell, hindex] at hleaf
      exact hleaf
    | page page => exact (h.pages page f hr).2
  · exact h.step.kept f hc

end Restored

/-- A run of pages on offer is mapped, to entries that `new` allows. -/
structure Grown (user : Bool) (new : Nat → TableEntry → Prop) (v w : Mmu) (first n : Nat) :
    Prop where
  sound : w.Sound
  step : Step none v w
  before : ∀ p, first ≤ p → p < first + n → v.space.isAvailable p = true
  mapped : ∀ p, first ≤ p → p < first + n → new p (w.leaf p) ∧ (w.leaf p).isPresent = true
  leaf : ∀ p, ¬ (first ≤ p ∧ p < first + n) → w.leaf p = v.leaf p
  tables : ∀ s t, v.table? s = some t → w.table? s = some t
  trimmed : v.Trimmed → w.Trimmed
  offered : ∀ p, w.space.isAvailable p =
    if first ≤ p ∧ p < first + n then false else v.space.isAvailable p
  uniform : v.Uniform user → w.Uniform user
  pages : PagesKept v w

namespace Grown

theorem refl (hv : v.Sound) (first : Nat) : Grown user new v v first 0 where
  sound := hv
  step := .refl v
  before _ _ _ := by omega
  mapped _ _ _ := by omega
  leaf _ _ := rfl
  tables _ _ := id
  trimmed := id
  offered _ := by rw [if_neg (by omega)]
  uniform := id
  pages := .refl v

theorem trans {m : Nat} (h : Grown user new v w first n) (h' : Grown user new w x (first + n) m) :
    Grown user new v x first (n + m) where
  sound := h'.sound
  step := h.step.trans h'.step
  before p hle hlt := by
    by_cases hp : p < first + n
    · exact h.before p hle hp
    · have hw := h'.before p (by omega) (by omega)
      rwa [h.offered, if_neg (by omega)] at hw
  mapped p hle hlt := by
    by_cases hp : p < first + n
    · rw [h'.leaf p (by omega)]
      exact h.mapped p hle hp
    · exact h'.mapped p (by omega) (by omega)
  leaf p hp := by rw [h'.leaf p (by omega), h.leaf p (by omega)]
  tables s t ht := h'.tables s t (h.tables s t ht)
  trimmed ht := h'.trimmed (h.trimmed ht)
  offered p := by
    rw [h'.offered, h.offered, ← ite_or]
    exact if_congr (by omega) rfl rfl
  uniform hu := h'.uniform (h.uniform hu)
  pages := h.pages.trans h'.pages

theorem restored (h : Grown user new v w first n) (h' : Restored user w x) :
    Grown user new v x first n where
  sound := h'.sound
  step := h.step.trans h'.step
  before := h.before
  mapped := by
    rw [h'.leaf]
    exact h.mapped
  leaf := by
    rw [h'.leaf]
    exact h.leaf
  tables := by
    rw [h'.tables]
    exact h.tables
  trimmed ht := h'.trimmed (h.trimmed ht)
  offered := by
    rw [h'.offered]
    exact h.offered
  uniform hu := h'.uniform (h.uniform hu)
  pages := h.pages.trans h'.pages

end Grown

theorem Trimmed.exists_table? (hv : v.Trimmed)
    (hp : ∀ p, (v.leaf p).isPresent = true → (x.leaf p).isPresent = true) {s : Nat} {t : Frame}
    (h : v.table? s = some t) : ∃ u, x.table? s = some u := by
  obtain ⟨i, hi⟩ := hv s t h
  obtain ⟨hlt, hpresent⟩ := mem_presentBelow_iff.mp hi
  obtain ⟨u, hu⟩ := table?_of_present (hp _ hpresent)
  rw [show (1024 * s + i) / 1024 = s by omega] at hu
  exact ⟨u, hu⟩

theorem tables_eq_of_leaf (hv : v.Trimmed) (hx : x.Trimmed) (hl : x.leaf = v.leaf)
    (ha : ∀ s t u, v.table? s = some t → x.table? s = some u → t = u) : x.table? = v.table? := by
  funext s
  cases h : v.table? s with
  | some t =>
    obtain ⟨u, hu⟩ := hv.exists_table? (x := x) (fun p hp => by rwa [hl]) h
    rw [hu, ha s t u h hu]
  | none =>
    cases h' : x.table? s with
    | none => rfl
    | some u =>
      obtain ⟨t, ht⟩ := hx.exists_table? (x := v) (fun p hp => by rwa [← hl]) h'
      rw [h] at ht
      cases ht

theorem Grown.undone (hv : v.Sound) (ht : v.Trimmed) (h : Grown user new v w first n)
    (h' : Unassigned w x first n) : Restored user v x := by
  have hleaf : x.leaf = v.leaf := by
    funext p
    rw [h'.leaf]
    split
    · next hp => exact (hv.absent (hv.offered (h.before p hp.1 hp.2))).symm
    · next hp => exact h.leaf p hp
  refine ⟨h'.sound, h.step.trans h'.step, hleaf, ?_, ?_, fun hu => h'.uniform user (h.uniform hu),
    ?_⟩
  · refine tables_eq_of_leaf ht (h'.trimmed (h.trimmed ht)) hleaf ?_
    intro s t u hs hu
    exact Option.some.inj ((h.tables s t hs).symm.trans (h'.tables s u hu))
  · funext p
    rw [h'.offered, h.offered]
    split
    · next hp => exact (h.before p hp.1 hp.2).symm
    · rfl
  · refine .of_leaf hleaf fun p f hf => ?_
    have hx : x.held (.page p) = some f := by
      rw [held_page_eq_some, hleaf, ← held_page_eq_some]
      exact hf
    exact (h'.pages p f hx).2.symm.trans (h.pages p f hf).2

theorem Grown.undone_zero (ht : v.Trimmed) (h : Grown user new v w first 0) :
    Restored user v w := by
  have hleaf : w.leaf = v.leaf := by
    funext p
    exact h.leaf p (by omega)
  refine ⟨h.sound, h.step, hleaf, ?_, ?_, h.uniform, h.pages⟩
  · refine tables_eq_of_leaf ht (h.trimmed ht) hleaf ?_
    intro s t u hs hu
    exact Option.some.inj ((h.tables s t hs).symm.trans hu)
  · funext p
    rw [h.offered, if_neg (by omega)]

/-- Undoing a run never fails. -/
theorem rollback_meets (hv : v.Sound) (ht : v.Trimmed) (h : Grown user new v w first n) :
    (rollback first n).Meets gap w fun _ x => Restored user v x := by
  unfold rollback
  split
  · next h0 =>
    subst h0
    exact Op.pure_meets (h.undone_zero ht)
  · next h0 =>
    have hpresent : ∀ p, first ≤ p → p < first + n → (w.leaf p).isPresent = true :=
      fun p hle hlt => (h.mapped p hle hlt).2
    refine Op.Meets.bind (unassign_present h.sound h0 hpresent) ?_
    intro r x hx
    cases r with
    | ok u => exact Op.pure_meets (h.undone hv ht hx)
    | error e => exact hx.elim

end PagedKernel.Mmu
