import PagedKernel.Proofs.Host.Invariant
import PagedKernel.Proofs.Space.Turnover

/-! Taking a space down, in frames. Those of the pages it owns, of its tables and of its
directory go back to the pool, each once; frames that it borrowed stay as they are. -/

namespace PagedKernel.Mmu

variable {v : Mmu} {f : Frame}

def ownedPages (v : Mmu) : Finset Nat :=
  (Finset.range pageCount).filter fun p => (v.leaf p).isPresent && !(v.leaf p).isBorrowed

def linkedSlots (v : Mmu) : Finset Nat :=
  (Finset.range 1024).filter fun slot => (v.table? slot).isSome

def pageFrames (v : Mmu) : Set Frame :=
  {f | ∃ p ∈ v.ownedPages, (v.leaf p).frame = f}

def tableFrames (v : Mmu) : Set Frame :=
  {f | ∃ slot ∈ v.linkedSlots, v.table? slot = some f}

def ownFrames (v : Mmu) : Set Frame :=
  insert v.space.directory (v.pageFrames ∪ v.tableFrames)

theorem mem_ownedPages {p : Nat} :
    p ∈ v.ownedPages ↔ (v.leaf p).isPresent = true ∧ (v.leaf p).isBorrowed = false := by
  simp only [ownedPages, Finset.mem_filter, Finset.mem_range, Bool.and_eq_true, Bool.not_eq_true']
  exact and_iff_right_of_imp fun h => lt_of_present h.1

theorem mem_linkedSlots {slot : Nat} : slot ∈ v.linkedSlots ↔ v.table? slot ≠ none := by
  simp only [linkedSlots, Finset.mem_filter, Finset.mem_range, Option.isSome_iff_ne_none]
  exact and_iff_right_of_imp fun h => Nat.lt_of_not_le fun hle => h (table?_eq_none_of_le hle)

theorem mem_pageFrames : f ∈ v.pageFrames ↔ ∃ p, v.held (.page p) = some f := by
  refine exists_congr fun p => ?_
  rw [mem_ownedPages, held_page_eq_some, and_assoc]

theorem mem_tableFrames : f ∈ v.tableFrames ↔ ∃ slot, v.held (.table slot) = some f := by
  refine exists_congr fun slot => ?_
  rw [mem_linkedSlots]
  exact and_iff_right_of_imp fun h => h ▸ Option.some_ne_none f

theorem mem_ownFrames : f ∈ v.ownFrames ↔ ∃ r, v.held r = some f := by
  simp only [ownFrames, Set.mem_insert_iff, Set.mem_union, mem_pageFrames, mem_tableFrames]
  constructor
  · rintro (rfl | ⟨p, hp⟩ | ⟨slot, hs⟩)
    · exact ⟨.directory, rfl⟩
    · exact ⟨_, hp⟩
    · exact ⟨_, hs⟩
  · rintro ⟨r, hr⟩
    cases r with
    | directory => exact .inl (Option.some.inj hr).symm
    | table slot => exact .inr (.inr ⟨slot, hr⟩)
    | page p => exact .inr (.inl ⟨p, hr⟩)

def filledRoles (v : Mmu) : Finset Role :=
  insert .directory (v.ownedPages.image Role.page ∪ v.linkedSlots.image Role.table)

theorem mem_filledRoles {r : Role} : r ∈ v.filledRoles ↔ v.held r ≠ none := by
  simp only [filledRoles, Finset.mem_insert, Finset.mem_union, Finset.mem_image]
  cases r with
  | directory => simp [held]
  | table slot => simp [mem_linkedSlots, held]
  | page p => simp [mem_ownedPages, held]

theorem card_filledRoles (v : Mmu) :
    v.filledRoles.card = v.ownedPages.card + v.linkedSlots.card + 1 := by
  have hapart : Disjoint (v.ownedPages.image Role.page) (v.linkedSlots.image Role.table) := by
    simp only [Finset.disjoint_left, Finset.mem_image]
    rintro _ ⟨p, -, rfl⟩ ⟨slot, -, ⟨⟩⟩
  rw [filledRoles, Finset.card_insert_of_notMem (by simp), Finset.card_union_of_disjoint hapart,
    Finset.card_image_of_injective _ fun _ _ => Role.page.inj,
    Finset.card_image_of_injective _ fun _ _ => Role.table.inj]

theorem Sound.ncard_ownFrames (hv : v.Sound) :
    v.ownFrames.ncard = v.ownedPages.card + v.linkedSlots.card + 1 := by
  have hfilled : v.ownFrames = {f | ∃ r ∈ v.filledRoles, v.held r = some f} := by
    ext f
    rw [mem_ownFrames]
    refine exists_congr fun r => ?_
    rw [mem_filledRoles]
    exact (and_iff_right_of_imp fun h => h ▸ Option.some_ne_none f).symm
  rw [hfilled, hv.ncard_held fun _ => mem_filledRoles.mp, card_filledRoles]

/-- What taking a space down makes of the machine. -/
structure TornDown (v : Mmu) (m : Machine) : Prop where
  ram : m.ram = v.machine.ram
  /-- Pages, tables and directory have no frame in common. -/
  apart : (∀ f ∈ v.pageFrames, f ∉ v.tableFrames) ∧ v.space.directory ∉ v.pageFrames ∪ v.tableFrames
  /-- The frames of the space were in use, and are available now. -/
  given : ∀ f ∈ v.ownFrames, ¬ v.available f ∧ m.pool.isAvailable f = true
  others : ∀ f ∉ v.ownFrames, (m.pool.isAvailable f = true ↔ v.available f)
  count : m.pool.available =
    v.machine.pool.available + (v.ownedPages.card + v.linkedSlots.card + 1)

theorem Sound.frames_apart (hv : v.Sound) :
    (∀ f ∈ v.pageFrames, f ∉ v.tableFrames) ∧
      v.space.directory ∉ v.pageFrames ∪ v.tableFrames := by
  refine ⟨fun f hp ht => ?_, ?_⟩
  · obtain ⟨p, hp⟩ := mem_pageFrames.mp hp
    obtain ⟨slot, hs⟩ := mem_tableFrames.mp ht
    cases hv.role_unique hp hs
  · rintro (hp | ht)
    · obtain ⟨p, hp⟩ := mem_pageFrames.mp hp
      exact hv.page_ne_directory hp rfl
    · obtain ⟨slot, hs⟩ := mem_tableFrames.mp ht
      exact hv.table_ne_directory hs rfl

theorem release_exact (hv : v.Sound) (events : Array Event) :
    ∃ t, v.space.release ⟨v.machine, events⟩ = .ok () t ∧ TornDown v t.state ∧
      Quiet events t.events := by
  have hmeets : v.space.release.Meets False v.machine _ := AddressSpace.release_meets hv
  obtain ⟨_, t, hrun, -⟩ := hmeets.exists_answer events
  obtain ⟨hfreed, hquiet⟩ := Op.Meets.post hmeets hrun
  have havailable : ∀ f, t.state.pool.isAvailable f = true ↔ v.available f ∨ f ∈ v.ownFrames := by
    intro f
    rw [hfreed.available, mem_heldFrames, mem_ownFrames]
    rfl
  have htaken : ∀ f ∈ v.ownFrames, ¬ v.available f := by
    intro f hf
    obtain ⟨r, hr⟩ := mem_ownFrames.mp hf
    exact hv.not_available hr
  refine ⟨t, hrun, ⟨hfreed.ram, hv.frames_apart, ?_, ?_, ?_⟩, hquiet⟩
  · exact fun f hf => ⟨htaken f hf, (havailable f).mpr (.inr hf)⟩
  · exact fun f hf => (havailable f).trans (or_iff_left hf)
  · rw [← hv.ncard_ownFrames]
    exact FramePool.available_eq_add_ncard havailable htaken

theorem release_exact_twoPages : ∃ v t, SpaceHost.twoPagesSpace = some v ∧ v.Sound ∧
    v.space.release ⟨v.machine, #[]⟩ = .ok () t ∧ TornDown v t.state ∧ 1024 ∈ v.ownedPages ∧
    1 ∈ v.linkedSlots ∧ (v.leaf 1025).isBorrowed = true ∧ (v.leaf 1025).frame ∉ v.ownFrames := by
  have hsome : (SpaceHost.twoPagesSpace.any fun v => (v.leaf 1024).isPresent &&
      !(v.leaf 1024).isBorrowed && (v.table? 1).isSome && (v.leaf 1025).isBorrowed &&
        v.machine.pool.isAvailable (v.leaf 1025).frame) = true := by
    decide +kernel
  obtain ⟨v, hv, hand⟩ := (Option.any_eq_true _ _).mp hsome
  simp only [Bool.and_eq_true, Bool.not_eq_true', Option.isSome_iff_ne_none] at hand
  obtain ⟨⟨⟨⟨hpresent, howned⟩, htable⟩, hborrowed⟩, hfree⟩ := hand
  obtain ⟨hsound, -⟩ := SpaceHost.twoPagesSpace_sound hv
  obtain ⟨t, hrun, hdown, -⟩ := release_exact hsound #[]
  refine ⟨v, t, hv, hsound, hrun, hdown, mem_ownedPages.mpr ⟨hpresent, howned⟩,
    mem_linkedSlots.mpr htable, hborrowed, fun hown => ?_⟩
  exact (hdown.given _ hown).1 hfree

end PagedKernel.Mmu
