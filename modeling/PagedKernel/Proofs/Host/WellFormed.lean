import Mathlib.Algebra.BigOperators.Group.List.Basic
import Mathlib.Data.Nat.Count
import Mathlib.Data.Set.Card
import PagedKernel.Proofs.Host.Invariant

/-! What memory shows of a space at any time: its tables are its own, the counts are
those of the tables, nothing on offer is mapped, and the processor grants at every
address what the entry of the page says. -/

namespace PagedKernel

structure Grant where
  frame : Frame
  writable : Bool
  user : Bool

namespace AddressSpace

/-- What the processor finds at an address. Both levels have to be present, and both
have to give a right. -/
def walk (s : AddressSpace) (ram : Ram) (va : VirtualAddress) : Except Fault (Option Grant) := do
  let link := (← ram.directory s.directory).get va.directoryIndex
  match link.table? with
  | none => return none
  | some table =>
    let e := (← ram.table table).get va.tableIndex
    if e.isPresent then
      return some ⟨e.frame, link.flags.writable && e.isWritable, link.flags.userAccess && e.isUser⟩
    else return none

def Maps (s : AddressSpace) (ram : Ram) (page : Page) : Prop :=
  ∃ e, s.entry ram page.base = .ok e ∧ e.isPresent = true

/-- A space with the directory that memory holds for it. -/
structure WellFormed (s : AddressSpace) (m : Machine) (d : PageDirectory) : Prop where
  directory : m.ram.directory s.directory = .ok d
  counted : ∀ slot table, (d.get slot).table? = some table →
    ∃ t, m.ram.table table = .ok t ∧ s.occupancy.get slot = t.present.length
  linked : ∀ slot, (d.get slot).isPresent = true ↔ 0 < s.occupancy.get slot
  distinct : ∀ slot slot' table, (d.get slot).table? = some table →
    (d.get slot').table? = some table → slot = slot'
  apart : ∀ slot table, (d.get slot).table? = some table →
    table ≠ s.directory ∧ m.pool.isAvailable table = false
  taken : m.pool.isAvailable s.directory = false
  /-- Pages that may be handed out are not mapped. -/
  offered : ∀ page : Page, s.isAvailable page.index.val = true → ¬ s.Maps m.ram page
  null : ∀ page : Page, page.index.val = 0 →
    s.isAvailable page.index.val = false ∧ ¬ s.Maps m.ram page
  user : ∀ va e, s.entry m.ram va = .ok e → e.isPresent = true → e.isUser = true →
    (d.get va.directoryIndex).flags.userAccess = true
  writable : ∀ slot, (d.get slot).isPresent = true → (d.get slot).flags.writable = true
  granted : ∀ va, ∃ e, s.entry m.ram va = .ok e ∧
    s.walk m.ram va = .ok (if e.isPresent then some ⟨e.frame, e.isWritable, e.isUser⟩ else none)
  mapped : s.mappedPages = {page | s.Maps m.ram page}.ncard

end AddressSpace

namespace Mmu

variable {v : Mmu}

def directory (v : Mmu) : PageDirectory :=
  ⟨v.machine.ram.words v.space.directory⟩

theorem isPresent_link {slot : EntryIndex} :
    (v.directory.get slot).isPresent = true ↔ ∃ table, v.table? slot.val = some table := by
  rw [table?, link_val, DirectoryEntry.table?, directory]
  split <;> simp_all

theorem maps_iff (hv : v.Sound) (page : Page) :
    v.space.Maps v.machine.ram page ↔ (v.leaf page.index.val).isPresent = true := by
  simp [AddressSpace.Maps, entry_eq hv]

theorem length_present {slot : Nat} {table : Frame} (ht : v.table? slot = some table) :
    (PageTable.mk (v.machine.ram.words table)).present.length = (v.presentBelow slot).card := by
  rw [PageTable.present, entries_eq ht, List.filter_map, List.length_map,
    ← List.countP_eq_length_filter, presentBelow, ← Nat.count_eq_card_filter_range]
  simp [Nat.count, Function.comp_def]

theorem linked_iff (hv : v.Sound) (ht : v.Trimmed) (slot : EntryIndex) :
    (v.directory.get slot).isPresent = true ↔ 0 < v.space.occupancy.get slot := by
  rw [isPresent_link, hv.occupancy_get, Finset.card_pos]
  constructor
  · rintro ⟨table, h⟩
    exact ht _ _ h
  · rintro ⟨i, hi⟩
    obtain ⟨hlt, hp⟩ := mem_presentBelow_iff.mp hi
    obtain ⟨table, h⟩ := table?_of_present hp
    exact ⟨table, by rwa [show (1024 * slot.val + i) / 1024 = slot.val by omega] at h⟩

/-- A link that is present gives the right to write, and the right of user code as far as
any page below it. -/
theorem walk_eq (hv : v.Sound) (hg : v.Guarded) (va : VirtualAddress) :
    v.space.walk v.machine.ram va = .ok (if (v.leaf va.pageNumber).isPresent then
      some ⟨(v.leaf va.pageNumber).frame, (v.leaf va.pageNumber).isWritable,
        (v.leaf va.pageNumber).isUser⟩ else none) := by
  have hslot := va.directoryIndex_val
  have hi : va.tableIndex = ⟨va.pageNumber % 1024, Nat.mod_lt _ (by decide)⟩ :=
    Fin.ext va.tableIndex_val
  obtain ⟨user, hlink⟩ := hg.links va.directoryIndex.val
  simp only [AddressSpace.walk, Ram.directory_of_installed hv.directory_installed, Bind.bind,
    Except.bind, ← link_val]
  cases ht : v.table? va.directoryIndex.val with
  | none =>
    rw [leaf_of_unlinked (hslot ▸ ht)]
    rw [show (v.link va.directoryIndex.val).table? = none from ht]
    rfl
  | some table =>
    have hleaf := leaf_of_table (hslot ▸ ht)
    have hget : (PageTable.mk (v.machine.ram.words table)).get va.tableIndex =
        v.leaf va.pageNumber := by rw [hleaf, hi, cell]
    rw [show (v.link va.directoryIndex.val).table? = some table from ht]
    simp only [Ram.table_of_installed (hv.table_installed ht), hget]
    split
    · next hp =>
      have huser := hg.user va.pageNumber hp
      rw [← hslot] at huser
      rw [ht] at hlink
      have hw : (v.link va.directoryIndex.val).flags.writable = true := by rw [hlink]; rfl
      have hu : ((v.link va.directoryIndex.val).flags.userAccess &&
          (v.leaf va.pageNumber).isUser) = (v.leaf va.pageNumber).isUser := by
        cases hl : (v.leaf va.pageNumber).isUser with
        | false => rw [Bool.and_false]
        | true => rw [huser hl, Bool.and_true]
      rw [hw, hu, Bool.true_and]
      rfl
    · rfl

theorem sum_presentBelow (v : Mmu) (n : Nat) :
    ((List.range n).map fun slot => (v.presentBelow slot).card).sum =
      ((Finset.range (1024 * n)).filter fun page => (v.leaf page).isPresent = true).card := by
  simp only [presentBelow, ← Nat.count_eq_card_filter_range]
  induction n with
  | zero => rfl
  | succ n ih =>
    rw [List.range_succ, List.map_append, List.sum_append, ih, Nat.mul_succ, Nat.count_add,
      List.map_singleton, List.sum_singleton]

theorem mappedPages_eq (hv : v.Sound) :
    v.space.mappedPages = {page | v.space.Maps v.machine.ram page}.ncard := by
  have hcounts : v.space.occupancy.toList =
      (List.range 1024).map fun slot => (v.presentBelow slot).card := by
    have hlen : v.space.occupancy.toList.length = 1024 := Vector.length_toList
    apply List.ext_getElem
    · rw [hlen, List.length_map, List.length_range]
    · intro slot h _
      rw [Vector.getElem_toList, List.getElem_map, List.getElem_range]
      exact hv.occupancy slot (h.trans_eq hlen)
  have hpages : (fun page : Page => page.index.val) '' {page | v.space.Maps v.machine.ram page} =
      ((Finset.range (1024 * 1024)).filter fun page => (v.leaf page).isPresent = true :) := by
    ext n
    simp only [Set.mem_image, Set.mem_ofPred_eq, maps_iff hv, Finset.coe_filter, Finset.mem_range]
    constructor
    · rintro ⟨page, hp, rfl⟩
      exact ⟨page.index.isLt, hp⟩
    · exact fun ⟨hlt, hp⟩ => ⟨⟨⟨n, hlt⟩⟩, hp, rfl⟩
  have hinjective : Function.Injective fun page : Page => page.index.val := by
    rintro ⟨i⟩ ⟨j⟩ hij
    exact congrArg Page.mk (Fin.ext hij)
  calc v.space.mappedPages
    _ = v.space.occupancy.toList.sum := by
      rw [AddressSpace.mappedPages, Vector.sum_toList, Vector.sum_eq_foldl]
    _ = ((Finset.range (1024 * 1024)).filter fun page => (v.leaf page).isPresent = true).card := by
      rw [hcounts, sum_presentBelow]
    _ = {page | v.space.Maps v.machine.ram page}.ncard := by
      rw [← Set.ncard_image_of_injective _ hinjective, hpages, Set.ncard_coe_finset]

theorem wellFormed (hv : v.Sound) (ht : v.Trimmed) (hg : v.Guarded) :
    v.space.WellFormed v.machine v.directory := by
  have htable : ∀ {slot : EntryIndex} {table},
      (v.directory.get slot).table? = some table → v.table? slot.val = some table := by
    intro slot table h
    rwa [table?, link_val]
  have habsent : ∀ {page : Page}, (v.leaf page.index.val).isPresent = false →
      ¬ v.space.Maps v.machine.ram page := by
    intro page h
    rw [maps_iff hv, h]
    exact Bool.false_ne_true
  exact
    { directory := Ram.directory_of_installed hv.directory_installed
      counted := fun slot table h => ⟨_, Ram.table_of_installed (hv.table_installed (htable h)),
        (hv.occupancy_get slot).trans (length_present (htable h)).symm⟩
      linked := linked_iff hv ht
      distinct := fun slot slot' table h h' => Fin.ext (hv.slot_unique (htable h) (htable h'))
      apart := fun slot table h => ⟨hv.table_ne_directory (htable h),
        Bool.eq_false_iff.mpr (@Sound.not_available v table hv (.table slot.val) (htable h))⟩
      taken := Bool.eq_false_iff.mpr (@Sound.not_available v _ hv .directory rfl)
      offered := fun page h => habsent (hv.offered h)
      null := fun page h => h ▸ ⟨hv.null.1, habsent (h ▸ hv.null.2)⟩
      user := by
        intro va e he hp hu
        obtain rfl := Except.ok.inj ((entry_eq hv va).symm.trans he)
        have hallowed := hg.user _ hp hu
        rwa [← va.directoryIndex_val, link_val] at hallowed
      writable := by
        intro slot hp
        obtain ⟨table, ht⟩ := isPresent_link.mp hp
        obtain ⟨user, hl⟩ := hg.links slot.val
        rw [ht, link_val] at hl
        exact (congrArg (·.flags.writable) hl).trans rfl
      granted := fun va => ⟨_, entry_eq hv va, walk_eq hv hg va⟩
      mapped := mappedPages_eq hv }

end Mmu

namespace SpaceHost

/-- Every space of a host is well formed, all along a run. -/
theorem spaces_wellFormed {h : SpaceHost} (hr : Reachable h) {i : Nat} {s : AddressSpace}
    (hs : h.space? i = some s) : ∃ d, s.WellFormed h.machine d := by
  obtain ⟨managed, hi⟩ := hr.inv
  exact ⟨_, Mmu.wellFormed (v := ⟨h.machine, s⟩) (hi.custody.sound hs) (hi.custody.trimmed hs)
    (hi.guarded hs)⟩

theorem spaces_wellFormed_twoPages : ∃ h s d, twoPages = some h ∧ h.space? 0 = some s ∧
    s.occupancy.get ⟨1, by decide⟩ = 2 ∧ s.WellFormed h.machine d := by
  have hrun : (twoPages.bind (·.space? 0)).any (·.occupancy.get ⟨1, by decide⟩ = 2) = true := by
    decide +kernel
  obtain ⟨s, hbind, hcount⟩ := (Option.any_eq_true _ _).mp hrun
  obtain ⟨h, hh, hs⟩ := Option.bind_eq_some_iff.mp hbind
  obtain ⟨d, hd⟩ := spaces_wellFormed (reachable_of_after (.initial _) hh) hs
  exact ⟨h, s, d, hh, hs, of_decide_eq_true hcount, hd⟩

end SpaceHost
end PagedKernel
