import PagedKernel.Proofs.Space.View

/-! When an address space and the pool agree: no frame is claimed twice, the
occupancy counts are right, and what is on offer is not mapped. A step of the
space touches only frames that are available or its own. -/

namespace PagedKernel.Mmu

structure Sound (v : Mmu) : Prop where
  pool : v.machine.pool.Sound
  directory_installed : v.machine.ram.installed v.space.directory
  table_installed : ∀ {slot f}, v.table? slot = some f → v.machine.ram.installed f
  /-- Every frame has one claim at most. -/
  unique : ∀ {c d f}, v.Claims c f → v.Claims d f → c = d
  occupancy : ∀ (slot : Nat) (h : slot < entriesPerTable),
    v.space.occupancy[slot] = (v.presentBelow slot).card
  absent : ∀ {page}, (v.leaf page).isPresent = false → v.leaf page = .zero
  /-- Pages that may be handed out are not mapped. -/
  offered : ∀ {page}, v.space.isAvailable page = true → (v.leaf page).isPresent = false
  null : v.space.isAvailable 0 = false ∧ (v.leaf 0).isPresent = false

def IsStructure (v : Mmu) (f : Frame) : Prop :=
  f = v.space.directory ∨ ∃ slot, v.table? slot = some f

/-- The paging structures are installed, in use and apart from each other, whatever the
entries say. -/
structure Framed (v : Mmu) : Prop where
  directory_installed : v.machine.ram.installed v.space.directory
  table_installed : ∀ {slot f}, v.table? slot = some f → v.machine.ram.installed f
  table_ne_directory : ∀ {slot f}, v.table? slot = some f → f ≠ v.space.directory
  slot_unique : ∀ {slot slot' f}, v.table? slot = some f → v.table? slot' = some f → slot = slot'
  in_use : ∀ {f}, v.IsStructure f → ¬ v.available f

/-- Every linked table has a present entry. -/
def Trimmed (v : Mmu) : Prop :=
  ∀ slot f, v.table? slot = some f → (v.presentBelow slot).Nonempty

/-- Frames that are available or held can be touched, except in the case `gap`. -/
def Reaches (gap : Prop) (v : Mmu) : Prop :=
  ∀ f, v.Covers f → v.machine.ram.installed f ∨ gap

theorem installed_or_missing (v : Mmu) {f : Frame} (hf : v.available f) :
    v.machine.ram.installed f ∨ ∃ f, v.available f ∧ ¬ v.machine.ram.installed f :=
  Classical.or_iff_not_imp_left.mpr fun hn => ⟨f, hf, hn⟩

/-- What happened between two states of a space: frames came from the pool or
went back to it, `gain` came from outside, and no other frame was touched. -/
structure Step (gain : Option Frame) (v w : Mmu) : Prop where
  installed : ∀ f, w.machine.ram.installed f ↔ v.machine.ram.installed f
  directory : w.space.directory = v.space.directory
  covers : ∀ f, w.Covers f ↔ v.Covers f ∨ gain = some f
  kept : ∀ f, ¬ v.Covers f → w.machine.ram.words f = v.machine.ram.words f

variable {v w x : Mmu} {gain : Option Frame} {gap : Prop} {f : Frame}

namespace Step

theorem refl (v : Mmu) : Step none v v where
  installed _ := .rfl
  directory := rfl
  covers f := by simp
  kept _ _ := rfl

theorem trans (h : Step none v w) (h' : Step gain w x) : Step gain v x where
  installed f := (h'.installed f).trans (h.installed f)
  directory := h'.directory.trans h.directory
  covers f := by
    rw [h'.covers, h.covers]
    simp
  kept f hf := by
    have hw : ¬ w.Covers f := by
      rw [h.covers]
      simpa using hf
    rw [h'.kept f hw, h.kept f hf]

theorem covers_iff (h : Step none v w) (f : Frame) : w.Covers f ↔ v.Covers f :=
  (h.covers f).trans (or_iff_left nofun)

theorem reaches (h : Step none v w) (hr : v.Reaches gap) : w.Reaches gap := by
  intro f hf
  rw [h.installed]
  exact hr f ((h.covers_iff f).mp hf)

end Step

/-- Pages that own a frame keep it, and its contents. -/
def PagesKept (v w : Mmu) : Prop :=
  ∀ p f, v.held (.page p) = some f →
    w.held (.page p) = some f ∧ w.machine.ram.words f = v.machine.ram.words f

namespace PagesKept

theorem refl (v : Mmu) : PagesKept v v :=
  fun _ _ h => ⟨h, rfl⟩

theorem trans (h : PagesKept v w) (h' : PagesKept w x) : PagesKept v x := by
  intro p f hf
  obtain ⟨hw, hwords⟩ := h p f hf
  obtain ⟨hx, hwords'⟩ := h' p f hw
  exact ⟨hx, hwords'.trans hwords⟩

theorem of_leaf (hl : w.leaf = v.leaf) (hw : ∀ p f, v.held (.page p) = some f →
    w.machine.ram.words f = v.machine.ram.words f) : PagesKept v w := by
  intro p f hf
  refine ⟨?_, hw p f hf⟩
  rw [held_page_eq_some, hl, ← held_page_eq_some]
  exact hf

theorem symm_of_leaf (hl : w.leaf = v.leaf) (h : PagesKept v w) : PagesKept w v := by
  refine of_leaf hl.symm fun p f hf => (h p f ?_).2.symm
  rw [held_page_eq_some, ← hl, ← held_page_eq_some]
  exact hf

end PagesKept

theorem Step.words_kept (h : Step none v w) (hpages : PagesKept v w) (ha : ¬ v.available f)
    (hs : ¬ v.IsStructure f) : w.machine.ram.words f = v.machine.ram.words f := by
  by_cases hc : v.Covers f
  · obtain ⟨role, hr⟩ := ((Mmu.covers_iff v f).mp hc).resolve_left ha
    cases role with
    | directory => exact absurd (.inl (Option.some.inj hr).symm) hs
    | table slot => exact absurd (.inr ⟨slot, hr⟩) hs
    | page p => exact (hpages p f hr).2
  · exact h.kept f hc

theorem Reaches.installed (hr : v.Reaches gap) (hf : v.available f) :
    v.machine.ram.installed f ∨ gap :=
  hr f ⟨none, hf⟩

namespace Sound

theorem occupancy_get (hv : v.Sound) (slot : EntryIndex) :
    v.space.occupancy.get slot = (v.presentBelow slot.val).card :=
  hv.occupancy slot.val slot.isLt

theorem not_available (hv : v.Sound) {role : Role} (h : v.held role = some f) :
    ¬ v.available f := by
  intro ha
  cases hv.unique (c := none) (d := some role) ha h

theorem role_unique (hv : v.Sound) {r q : Role} (h : v.held r = some f)
    (h' : v.held q = some f) : r = q :=
  Option.some.inj (hv.unique (c := some r) (d := some q) h h')

theorem table_ne_directory (hv : v.Sound) {slot : Nat} (h : v.table? slot = some f) :
    f ≠ v.space.directory := by
  rintro rfl
  cases hv.role_unique (r := .table slot) (q := .directory) h rfl

theorem page_ne_directory (hv : v.Sound) {page : Nat} (h : v.held (.page page) = some f) :
    f ≠ v.space.directory := by
  rintro rfl
  cases hv.role_unique (q := .directory) h rfl

theorem page_ne_table (hv : v.Sound) {page slot : Nat} {table : Frame}
    (h : v.held (.page page) = some f) (ht : v.table? slot = some table) : f ≠ table := by
  rintro rfl
  cases hv.role_unique (q := .table slot) h ht

theorem slot_unique (hv : v.Sound) {slot slot' : Nat} (h : v.table? slot = some f)
    (h' : v.table? slot' = some f) : slot = slot' := by
  cases hv.role_unique (r := .table slot) (q := .table slot') h h'
  rfl

theorem framed (hv : v.Sound) : v.Framed where
  directory_installed := hv.directory_installed
  table_installed := hv.table_installed
  table_ne_directory := hv.table_ne_directory
  slot_unique := hv.slot_unique
  in_use {f} hf := by
    obtain rfl | ⟨slot, ht⟩ := hf
    · exact @not_available v _ hv .directory rfl
    · exact @not_available v f hv (.table slot) ht

end Sound

theorem Framed.congr (hv : v.Framed) (hd : w.space.directory = v.space.directory)
    (hi : ∀ f, w.machine.ram.installed f ↔ v.machine.ram.installed f) (ht : w.table? = v.table?)
    (ha : ∀ f, w.available f → v.available f) : w.Framed where
  directory_installed := by
    rw [hd, hi]
    exact hv.directory_installed
  table_installed {slot f} h := by
    rw [hi]
    exact hv.table_installed (ht ▸ h)
  table_ne_directory {slot f} h := by
    rw [hd]
    exact hv.table_ne_directory (ht ▸ h)
  slot_unique h h' := hv.slot_unique (ht ▸ h) (ht ▸ h')
  in_use {f} hf hav := by
    rw [IsStructure, hd, ht] at hf
    exact hv.in_use hf (ha f hav)

/-- Frames keep their claims, except that `f` goes where `claim` says. -/
def Moved (f : Frame) (claim : Option Role → Prop) (v w : Mmu) : Prop :=
  ∀ c g, w.Claims c g ↔ if g = f then claim c else v.Claims c g

namespace Moved

variable {claim : Option Role → Prop}

theorem unique (h : Moved f claim v w) (hv : v.Sound)
    (hc : ∀ c c', claim c → claim c' → c = c') {c c' : Option Role} {g : Frame}
    (hg : w.Claims c g) (hg' : w.Claims c' g) : c = c' := by
  rw [h] at hg hg'
  split at hg
  · next he =>
    rw [if_pos he] at hg'
    exact hc c c' hg hg'
  · next hn =>
    rw [if_neg hn] at hg'
    exact hv.unique hg hg'

theorem covers (h : Moved f claim v w) (g : Frame) :
    w.Covers g ↔ if g = f then ∃ c, claim c else v.Covers g := by
  simp only [Covers, h _ g]
  split <;> rfl

theorem settle {role : Role} (hf : ¬ v.Covers f) (hn : v.held role = none)
    (ha : ∀ g, w.available g ↔ v.available g)
    (hh : ∀ r, w.held r = if r = role then some f else v.held r) :
    Moved f (· = some role) v w := by
  have hloose : ∀ c, ¬ v.Claims c f := fun c h => hf ⟨c, h⟩
  intro c g
  cases c with
  | none =>
    simp only [Claims, ha, reduceCtorEq]
    split
    · next he => exact iff_of_false (he ▸ hloose none) id
    · rfl
  | some r =>
    simp only [Claims, hh, Option.some.injEq]
    by_cases hr : r = role
    · subst hr
      simp only [if_true, hn, reduceCtorEq, Option.some.injEq]
      split
      · next he => exact iff_of_true he.symm trivial
      · next he => exact iff_of_false (fun h => he h.symm) id
    · rw [if_neg hr]
      split
      · next he => exact iff_of_false (he ▸ hloose (some r)) hr
      · rfl

theorem loosen {q : Role} (hv : v.Sound) (hf : v.held q = some f)
    (ha : ∀ g, w.available g ↔ v.available g)
    (hh : ∀ r, w.held r = if r = q then none else v.held r) :
    Moved f (fun _ => False) v w := by
  have honly : ∀ c, v.Claims c f → c = some q := fun c h => hv.unique h hf
  intro c g
  cases c with
  | none =>
    simp only [Claims, ha]
    split
    · next he => exact iff_of_false (fun h => nomatch honly none (he ▸ h)) id
    · rfl
  | some r =>
    simp only [Claims, hh]
    by_cases hr : r = q
    · subst hr
      simp only [if_true, reduceCtorEq, hf, Option.some.injEq]
      split
      · rfl
      · next he => exact iff_of_false id (fun h => he h.symm)
    · rw [if_neg hr]
      split
      · next he => exact iff_of_false (fun h => hr (Option.some.inj (honly (some r) (he ▸ h)))) id
      · rfl

end Moved

theorem claims_of_vacant {role : Role} (hn : v.held role = none)
    (ha : ∀ g, w.available g ↔ v.available g)
    (hh : ∀ r, w.held r = if r = role then none else v.held r) : w.Claims = v.Claims := by
  funext c g
  cases c with
  | none => exact propext (ha g)
  | some r =>
    simp only [Claims, hh]
    split
    · next hr => rw [hr, hn]
    · rfl

theorem presentBelow_congr {slot : Nat} (h : ∀ i < 1024,
    (w.leaf (1024 * slot + i)).isPresent = (v.leaf (1024 * slot + i)).isPresent) :
    w.presentBelow slot = v.presentBelow slot := by
  apply Finset.filter_congr
  intro i hi
  rw [h i (Finset.mem_range.mp hi)]

theorem mem_presentBelow_iff {slot i : Nat} :
    i ∈ v.presentBelow slot ↔ i < 1024 ∧ (v.leaf (1024 * slot + i)).isPresent = true := by
  simp only [presentBelow, Finset.mem_filter, Finset.mem_range]

theorem mem_presentBelow {page : Nat} (h : (v.leaf page).isPresent = true) :
    page % 1024 ∈ v.presentBelow (page / 1024) := by
  rw [mem_presentBelow_iff, Nat.div_add_mod]
  exact ⟨Nat.mod_lt _ (by decide), h⟩

end PagedKernel.Mmu
