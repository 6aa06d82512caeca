import Mathlib.Data.Finset.Card
import PagedKernel.Proofs.FramePool
import PagedKernel.Proofs.Ram
import PagedKernel.Space.Lifetime
import PagedKernel.Space.Mapping

/-! What an address space holds, seen through its directory and tables: the link
of a slot, the entry of a page, and the frame behind each role a frame can play
in the space. Slots and pages are plain numbers here; past the end nothing is
linked. -/

namespace PagedKernel.Mmu

def link (v : Mmu) (slot : Nat) : DirectoryEntry :=
  if h : slot < entriesPerTable then
    (PageDirectory.mk (v.machine.ram.words v.space.directory)).get ⟨slot, h⟩
  else .zero

def table? (v : Mmu) (slot : Nat) : Option Frame :=
  (v.link slot).table?

/-- The entry of a page in a table. -/
def cell (v : Mmu) (table : Frame) (page : Nat) : TableEntry :=
  (PageTable.mk (v.machine.ram.words table)).get ⟨page % 1024, Nat.mod_lt _ (by decide)⟩

/-- The entry that maps a page, zero where no table is linked. -/
def leaf (v : Mmu) (page : Nat) : TableEntry :=
  match v.table? (page / 1024) with
  | none => .zero
  | some table => v.cell table page

def presentBelow (v : Mmu) (slot : Nat) : Finset Nat :=
  (Finset.range 1024).filter fun i => (v.leaf (1024 * slot + i)).isPresent = true

inductive Role where
  | directory
  | table (slot : Nat)
  | page (page : Nat)
  deriving DecidableEq

/-- The frame the space holds in a role. Borrowed frames are not held. -/
def held (v : Mmu) : Role → Option Frame
  | .directory => some v.space.directory
  | .table slot => v.table? slot
  | .page page =>
    if (v.leaf page).isPresent && !(v.leaf page).isBorrowed then some (v.leaf page).frame else none

def available (v : Mmu) (f : Frame) : Prop :=
  v.machine.pool.isAvailable f = true

/-- A frame is claimed by the pool or, in a role, by the space. -/
def Claims (v : Mmu) : Option Role → Frame → Prop
  | none, f => v.available f
  | some role, f => v.held role = some f

/-- Whether a frame is available or held by the space. -/
def Covers (v : Mmu) (f : Frame) : Prop :=
  ∃ claim, v.Claims claim f

variable {v w : Mmu}

theorem leaf_of_table {page : Nat} {table : Frame} (h : v.table? (page / 1024) = some table) :
    v.leaf page = v.cell table page := by
  simp only [leaf, h]

theorem leaf_of_unlinked {page : Nat} (h : v.table? (page / 1024) = none) :
    v.leaf page = .zero := by
  simp only [leaf, h]

theorem table?_eq_none_of_le {slot : Nat} (h : 1024 ≤ slot) : v.table? slot = none := by
  have hn : ¬ slot < entriesPerTable := by simpa using h
  simp only [table?, link, dif_neg hn]
  rfl

theorem table?_of_present {page : Nat} (h : (v.leaf page).isPresent = true) :
    ∃ table, v.table? (page / 1024) = some table := by
  cases ht : v.table? (page / 1024) with
  | some table => exact ⟨table, rfl⟩
  | none =>
    rw [leaf_of_unlinked ht] at h
    cases h

theorem lt_of_present {page : Nat} (h : (v.leaf page).isPresent = true) : page < pageCount := by
  obtain ⟨table, ht⟩ := table?_of_present h
  apply Classical.byContradiction
  intro hn
  simp only [pageCount_value] at hn
  rw [table?_eq_none_of_le (by omega)] at ht
  cases ht

theorem held_page_eq_some {page : Nat} {f : Frame} :
    v.held (.page page) = some f ↔
      (v.leaf page).isPresent = true ∧ (v.leaf page).isBorrowed = false ∧
        (v.leaf page).frame = f := by
  simp only [held]
  by_cases hp : (v.leaf page).isPresent = true <;>
    by_cases hb : (v.leaf page).isBorrowed = true <;> simp [hp, hb]

theorem covers_iff (v : Mmu) (f : Frame) :
    v.Covers f ↔ v.available f ∨ ∃ role, v.held role = some f := by
  constructor
  · rintro ⟨c, h⟩
    cases c with
    | none => exact .inl h
    | some role => exact .inr ⟨role, h⟩
  · rintro (h | ⟨role, h⟩)
    · exact ⟨none, h⟩
    · exact ⟨some role, h⟩

theorem ne_directory_of_loose {f : Frame} (hf : ¬ v.Covers f) : f ≠ v.space.directory := by
  rintro rfl
  exact hf ⟨some .directory, rfl⟩

theorem ne_table_of_loose {slot : Nat} {f table : Frame} (hf : ¬ v.Covers f)
    (ht : v.table? slot = some table) : f ≠ table := by
  rintro rfl
  exact hf ⟨some (.table slot), ht⟩

theorem held_eq (hd : w.space.directory = v.space.directory) (ht : w.table? = v.table?)
    (hl : w.leaf = v.leaf) : w.held = v.held := by
  funext role
  cases role with
  | directory => exact congrArg some hd
  | table slot => exact congrFun ht slot
  | page page => simp only [held, hl]

theorem view_congr (hs : w.space.directory = v.space.directory)
    (hd : w.machine.ram.words v.space.directory = v.machine.ram.words v.space.directory)
    (ht : ∀ slot table, v.table? slot = some table →
      w.machine.ram.words table = v.machine.ram.words table) :
    w.link = v.link ∧ w.table? = v.table? ∧ w.leaf = v.leaf ∧ w.held = v.held := by
  have hlink : w.link = v.link := by
    funext slot
    simp only [link, hs, hd]
  have htable : w.table? = v.table? := by
    funext slot
    simp only [table?, hlink]
  have hleaf : w.leaf = v.leaf := by
    funext page
    cases h : v.table? (page / 1024) with
    | none => rw [leaf_of_unlinked h, leaf_of_unlinked (by rw [htable, h])]
    | some table =>
      rw [leaf_of_table h, leaf_of_table (by rw [htable, h]), cell, cell, ht _ _ h]
  exact ⟨hlink, htable, hleaf, held_eq hs htable hleaf⟩

end PagedKernel.Mmu
