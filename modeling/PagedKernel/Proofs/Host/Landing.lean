import PagedKernel.Proofs.Host.WellFormed

/-! Where the frame of an owned mapping ends up. A missing page table is taken from the
pool before the frame is reserved, so the frame that is mapped may be the table itself. -/

namespace PagedKernel.Mmu

variable {v w : Mmu} {f table : Frame} {d : PageDirectory} {pa : PhysicalAddress}
  {va : VirtualAddress} {writable user : Bool} {events : Array Event} {t : Traced Mmu}

theorem framed_of_wellFormed (hv : v.space.WellFormed v.machine d) : v.Framed := by
  have hd := Ram.installed_of_directory hv.directory
  obtain rfl : v.directory = d :=
    Except.ok.inj ((Ram.directory_of_installed hd).symm.trans hv.directory)
  have hlink : ∀ {n g}, v.table? n = some g →
      ∃ slot : EntryIndex, slot.val = n ∧ (v.directory.get slot).table? = some g := by
    intro n g h
    have hlt : n < 1024 := by
      refine Nat.lt_of_not_le fun hle => ?_
      rw [table?_eq_none_of_le hle] at h
      cases h
    refine ⟨⟨n, hlt⟩, rfl, ?_⟩
    rwa [directory, ← link_val]
  refine ⟨hd, fun h => ?_, fun h => ?_, fun h h' => ?_, ?_⟩
  · obtain ⟨slot, -, hs⟩ := hlink h
    obtain ⟨t, ht, -⟩ := hv.counted slot _ hs
    exact Ram.installed_of_table ht
  · obtain ⟨slot, -, hs⟩ := hlink h
    exact (hv.apart slot _ hs).1
  · obtain ⟨slot, rfl, hs⟩ := hlink h
    obtain ⟨slot', rfl, hs'⟩ := hlink h'
    exact congrArg Fin.val (hv.distinct slot slot' _ hs hs')
  · rintro g (rfl | ⟨n, h⟩)
    · exact Bool.eq_false_iff.mp hv.taken
    · obtain ⟨slot, -, hs⟩ := hlink h
      exact Bool.eq_false_iff.mp (hv.apart slot g hs).2

theorem Framed.joined {slot : Nat} (hv : v.Framed) (hd : w.space.directory = v.space.directory)
    (hi : ∀ g, w.machine.ram.installed g ↔ v.machine.ram.installed g)
    (ht : ∀ s, w.table? s = if s = slot then some table else v.table? s)
    (hnew : v.available table) (hinstalled : v.machine.ram.installed table)
    (ha : ∀ g, w.available g → v.available g ∧ g ≠ table) : w.Framed := by
  have hstructure : ∀ {g}, v.IsStructure g → g ≠ table := fun hg he => hv.in_use hg (he ▸ hnew)
  have hcases : ∀ {s g}, w.table? s = some g → s = slot ∧ g = table ∨ v.table? s = some g := by
    intro s g h
    rw [ht] at h
    split at h
    · next hs => exact .inl ⟨hs, (Option.some.inj h).symm⟩
    · exact .inr h
  refine ⟨by rw [hd, hi]; exact hv.directory_installed, fun h => ?_, fun h => ?_,
    fun h h' => ?_, ?_⟩
  · rw [hi]
    obtain ⟨-, rfl⟩ | h := hcases h
    · exact hinstalled
    · exact hv.table_installed h
  · rw [hd]
    obtain ⟨-, rfl⟩ | h := hcases h
    · exact (hstructure (.inl rfl)).symm
    · exact hv.table_ne_directory h
  · obtain ⟨rfl, rfl⟩ | h := hcases h <;> obtain ⟨rfl, hg⟩ | h' := hcases h'
    · rfl
    · exact absurd rfl (hstructure (.inr ⟨_, h'⟩))
    · exact absurd hg (hstructure (.inr ⟨_, h⟩))
    · exact hv.slot_unique h h'
  · rintro g hg hav
    obtain ⟨hbefore, hne⟩ := ha g hav
    obtain rfl | ⟨s, h⟩ := hg
    · exact hv.in_use (.inl hd) hbefore
    · obtain ⟨-, rfl⟩ | h := hcases h
      · exact hne rfl
      · exact hv.in_use (.inr ⟨s, h⟩) hbefore

/-- A table was found below a slot, or the first available frame was made one. -/
structure Provided (v w : Mmu) (slot : Nat) (table : Frame) : Prop where
  framed : w.Framed
  pool : w.machine.pool.Sound
  space : w.space = v.space
  leaf : w.leaf = v.leaf
  tables : ∀ s, w.table? s = if s = slot then some table else v.table? s
  source : v.table? slot = some table ∨
    v.table? slot = none ∧ v.machine.pool.alloc.1 = some table

theorem Framed.newTable {slot : EntryIndex} (hv : v.Framed) (hp : v.machine.pool.Sound)
    (ht : v.table? slot.val = none) (ha : v.machine.pool.alloc.1 = some table)
    (hi : v.machine.ram.installed table) (user : Bool) :
    Provided v (v.withNewTable slot table user) slot.val table := by
  obtain ⟨hnew, havailable, -⟩ := FramePool.alloc_eq_some ha
  have hd : table ≠ v.space.directory := fun he => hv.in_use (.inl he) hnew
  have hn : ∀ s, v.table? s ≠ some table := fun s h => hv.in_use (.inr ⟨s, h⟩) hnew
  let u := (v.withPool v.machine.pool.alloc.2).withFrame table fun _ => FrameWords.zero
  obtain ⟨-, htable, hleaf, -⟩ :=
    view_withFrame (v := v.withPool v.machine.pool.alloc.2) hi hd hn fun _ => FrameWords.zero
  have hu : u.Framed := hv.congr rfl (fun _ => Ram.installed_change _) htable
    fun g hg => ((havailable g).mp hg).1
  have hz : u.machine.ram.words table = .zero := (Ram.words_change hi _ table).trans (if_pos rfl)
  have hl := leaf_link hu ((congrFun htable slot.val).trans ht) hd hz user
  have htables : ∀ s, (v.withNewTable slot table user).table? s =
      if s = slot.val then some table else v.table? s := by
    intro s
    refine (table?_withLink hu.directory_installed slot (.ofTable table user) s).trans ?_
    rw [DirectoryEntry.table?_ofTable, htable]
    rfl
  refine ⟨hv.joined rfl ?_ htables hnew hi fun g hg => (havailable g).mp hg, FramePool.alloc_sound hp,
    rfl, hl.trans hleaf, htables, .inr ⟨ht, ha⟩⟩
  exact fun g => (Ram.installed_change _).trans (Ram.installed_change _)

theorem ensureTable_provides (hv : v.Framed) (hp : v.machine.pool.Sound) (slot : EntryIndex)
    (user : Bool) :
    (ensureTable slot user).Meets True v (fun table w => Provided v w slot.val table) fun e w =>
      e = .outOfFrames ∧ w = v ∧ v.table? slot.val = none ∧ ∀ f, ¬ v.available f := by
  refine ensureTable_cases hp hv.directory_installed slot user (fun _ _ => .inr trivial)
    (fun table ht _ => ?_) (fun table ht _ => ?_) fun table ht ha hi => hv.newTable hp ht ha hi user
  · exact ⟨hv, hp, rfl, rfl, table?_of_linked ht, .inl ht⟩
  · obtain ⟨htable, hleaf⟩ := @Framed.view_allowUser v slot hv
    refine ⟨hv.congr rfl (fun _ => Ram.installed_change _) htable fun _ => id, hp, rfl, hleaf, ?_,
      .inl ht⟩
    rw [htable]
    exact table?_of_linked ht

/-- What a space holds once a page is mapped to a frame of its own. -/
structure Landed (v w : Mmu) (page : Nat) (f table : Frame) : Prop where
  source : v.table? (page / 1024) = some table ∨
    v.table? (page / 1024) = none ∧ v.machine.pool.alloc.1 = some table
  held : ∀ role, w.held role =
    if role = .page page then some f
    else if role = .table (page / 1024) then some table else v.held role

theorem assignOwned_lands (hv : v.Framed) (hp : v.machine.pool.Sound) (pa : PhysicalAddress)
    (va : VirtualAddress) (writable user : Bool) :
    (assignOwned pa va writable user).Meets True v
      (fun _ w => ∃ table, Landed v w va.pageNumber pa.frame table)
      fun e w => w = v ∧ AssignRefused v va e := by
  let flags : EntryBits := .leaf writable user false
  refine assign_fills hv pa va flags (ensureTable_provides hv hp _ _) (fun table w h => ?_)
    fun _ _ table w h => ⟨table, ?_⟩
  · exact ⟨h.pool, h.framed.table_installed ((h.tables _).trans (if_pos rfl)), .inr trivial⟩
  have hu := h.framed.withReserved h.pool flags pa.frame
  obtain ⟨hspace, -, -, htable, hleaf⟩ := view_withReserved w flags pa.frame
  have ht : (w.withReserved flags pa.frame).table? va.directoryIndex.val = some table := by
    rw [htable, h.tables, if_pos rfl]
  refine ⟨va.directoryIndex_val ▸ h.source, fun role => ?_⟩
  cases role with
  | directory => exact congrArg (fun s => some s.directory) (hspace.trans h.space)
  | table s =>
    refine (congrFun (table?_withMapped hu ht _) s).trans ?_
    rw [htable, h.tables, va.directoryIndex_val]
    simp only [reduceCtorEq, if_false, Role.table.injEq]
    rfl
  | page p =>
    simp only [held, leaf_withMapped hu ht, hleaf, h.leaf, Role.page.injEq, reduceCtorEq, if_false]
    split <;> rfl

theorem isStructure_iff_held :
    v.IsStructure f ↔ v.held .directory = some f ∨ ∃ slot, v.held (.table slot) = some f := by
  simp only [IsStructure, held, Option.some.injEq, eq_comm]

namespace Landed

variable {page : Nat}

theorem isStructure_iff (h : Landed v w page f table) (hf : ¬ v.IsStructure f) :
    w.IsStructure f ↔ v.table? (page / 1024) = none ∧ v.machine.pool.alloc.1 = some f := by
  rw [isStructure_iff_held] at hf ⊢
  simp only [h.held, reduceCtorEq, if_false, Role.table.injEq]
  constructor
  · rintro (hd | ⟨s, hs⟩)
    · exact absurd (.inl hd) hf
    · split at hs
      · obtain rfl := Option.some.inj hs
        exact h.source.resolve_left fun ht => hf (.inr ⟨_, ht⟩)
      · exact absurd (.inr ⟨s, hs⟩) hf
  · rintro ⟨hn, ha⟩
    obtain ht | ⟨-, ht⟩ := h.source
    · cases hn.symm.trans ht
    · exact .inr ⟨page / 1024, by rw [if_pos rfl, ← ht, ha]⟩

theorem sole_iff (h : Landed v w page f table) (hf : ∀ p, v.held (.page p) ≠ some f) :
    (∀ role, w.held role = some f ↔ role = .page page) ↔ ¬ w.IsStructure f := by
  rw [isStructure_iff_held]
  constructor
  · rintro honly (hd | ⟨s, hs⟩)
    · cases (honly _).mp hd
    · cases (honly _).mp hs
  · intro hapart role
    refine ⟨fun hr => ?_, fun hr => by rw [h.held, if_pos hr]⟩
    cases role with
    | directory => exact absurd (.inl hr) hapart
    | table s => exact absurd (.inr ⟨s, hr⟩) hapart
    | page p =>
      refine Classical.byContradiction fun hne => hf p ?_
      rwa [h.held, if_neg hne, if_neg (by rintro ⟨⟩)] at hr

end Landed

/-- Mapping a page to a frame that is available, or in use outside the paging structures,
does not make it one of them. -/
def LandsApart : Prop :=
  ∀ (v : Mmu) (d : PageDirectory) (pa : PhysicalAddress) (va : VirtualAddress)
    (writable user : Bool) (events : Array Event) (t : Traced Mmu),
    v.space.WellFormed v.machine d → v.machine.pool.Sound →
    (v.available pa.frame ∨ ¬ v.IsStructure pa.frame) →
    (assignOwned pa va writable user).run ⟨v, events⟩ = .ok (.ok ()) t →
    ¬ t.state.IsStructure pa.frame

/-- Where the frame of a new mapping ends up in a well-formed space. It is a table afterwards
exactly if the page needed a table and the frame was next in the pool; and exactly if it is
not, the page is the one owner of a frame that no page owned before. -/
theorem landing_of_assignOwned (hv : v.space.WellFormed v.machine d) (hp : v.machine.pool.Sound)
    (hf : v.available pa.frame ∨ ¬ v.IsStructure pa.frame)
    (hrun : (assignOwned pa va writable user).run ⟨v, events⟩ = .ok (.ok ()) t) :
    (t.state.IsStructure pa.frame ↔
      v.table? (va.pageNumber / 1024) = none ∧ v.machine.pool.alloc.1 = some pa.frame) ∧
    ((∀ page, v.held (.page page) ≠ some pa.frame) →
      ((∀ role, t.state.held role = some pa.frame ↔ role = .page va.pageNumber) ↔
        ¬ t.state.IsStructure pa.frame)) := by
  have hframed := framed_of_wellFormed hv
  obtain ⟨table, hlanded⟩ :=
    (Op.Meets.post (assignOwned_lands hframed hp pa va writable user) hrun).1
  have hapart : ¬ v.IsStructure pa.frame := hf.elim (fun ha hs => hframed.in_use hs ha) id
  exact ⟨hlanded.isStructure_iff hapart, hlanded.sole_iff⟩

def assigned? (v : Mmu) (pa : PhysicalAddress) (va : VirtualAddress) : Option (Traced Mmu) :=
  match (assignOwned pa va true false).run ⟨v, #[]⟩ with
  | .ok (.ok ()) t => some t
  | _ => none

theorem run_of_assigned? (h : v.assigned? pa va = some t) :
    (assignOwned pa va true false).run ⟨v, #[]⟩ = .ok (.ok ()) t := by
  unfold assigned? at h
  split at h
  · next hrun =>
    cases h
    exact hrun
  · cases h

def emptySpace : Option Mmu :=
  match AddressSpace.create.run ⟨⟨.arena 16, FramePool.empty.releaseRange 0 16⟩, #[]⟩ with
  | .ok (.ok s) t => some ⟨t.state, s⟩
  | _ => none

theorem emptySpace_created (h : emptySpace = some v) :
    AddressSpace.Created ⟨.arena 16, FramePool.empty.releaseRange 0 16⟩ v.machine v.space ∧
      v.space = .fresh v.space.directory := by
  have hpool := FramePool.releaseRange_sound FramePool.empty_sound 0 16
  unfold emptySpace at h
  split at h
  · next hrun =>
    cases h
    have hmeets := AddressSpace.create_meets (m := ⟨.arena 16, _⟩) hpool fun _ _ => .inr trivial
    exact (Op.Meets.post hmeets hrun).1
  · cases h

theorem emptySpace_wellFormed (h : emptySpace = some v) :
    v.space.WellFormed v.machine v.directory ∧ v.machine.pool.Sound := by
  obtain ⟨hcreated, -⟩ := emptySpace_created h
  refine ⟨wellFormed hcreated.sound (fun slot f h => ?_) ?_, hcreated.sound.pool⟩
  · cases (hcreated.tables slot).symm.trans h
  · exact SpaceHost.guarded_of_no_tables (h := ⟨⟨.arena 16, _⟩, [], []⟩) hcreated

theorem landing_of_assignOwned_secondFrame :
    ∃ v t, emptySpace = some v ∧ v.space.WellFormed v.machine v.directory ∧
      v.available (PhysicalAddress.ofBits 8192).frame ∧
      (assignOwned (.ofBits 8192) (.ofBits 4194304) true false).run ⟨v, #[]⟩ = .ok (.ok ()) t ∧
      (t.state.IsStructure (PhysicalAddress.ofBits 8192).frame ↔
        v.table? 1 = none ∧
          v.machine.pool.alloc.1 = some (PhysicalAddress.ofBits 8192).frame) := by
  have hsome : (emptySpace.any fun v =>
      v.machine.pool.isAvailable (PhysicalAddress.ofBits 8192).frame &&
        (v.assigned? (.ofBits 8192) (.ofBits 4194304)).isSome) = true := by
    decide +kernel
  obtain ⟨v, hv, hand⟩ := (Option.any_eq_true _ _).mp hsome
  obtain ⟨ha, hanswered⟩ := Bool.and_eq_true_iff.mp hand
  obtain ⟨t, ht⟩ := Option.isSome_iff_exists.mp hanswered
  obtain ⟨hwf, hpool⟩ := emptySpace_wellFormed hv
  have hrun := run_of_assigned? ht
  exact ⟨v, t, hv, hwf, ha, hrun, (landing_of_assignOwned hwf hpool (.inl ha) hrun).1⟩

/-- The first frame of the pool becomes the table that maps it. -/
theorem not_landsApart_firstFrame : ¬ LandsApart := by
  have hsome : (emptySpace.any fun v =>
      v.machine.pool.alloc.1 = some (PhysicalAddress.ofBits 4096).frame ∧ v.table? 1 = none ∧
        (v.assigned? (.ofBits 4096) (.ofBits 4194304)).isSome) = true := by
    decide +kernel
  obtain ⟨v, hv, hand⟩ := (Option.any_eq_true _ _).mp hsome
  obtain ⟨hfirst, hmissing, hanswered⟩ := of_decide_eq_true hand
  obtain ⟨t, ht⟩ := Option.isSome_iff_exists.mp hanswered
  obtain ⟨hwf, hpool⟩ := emptySpace_wellFormed hv
  have hframed := framed_of_wellFormed hwf
  have hrun := run_of_assigned? ht
  have ha : v.available (PhysicalAddress.ofBits 4096).frame := (FramePool.alloc_eq_some hfirst).1
  have hapart : ¬ v.IsStructure (PhysicalAddress.ofBits 4096).frame := fun hs => hframed.in_use hs ha
  obtain ⟨table, hlanded⟩ := (Op.Meets.post (assignOwned_lands hframed hpool _ _ _ _) hrun).1
  intro h
  exact h v v.directory _ _ true false #[] t hwf hpool (.inl ha) hrun
    ((hlanded.isStructure_iff hapart).mpr ⟨hmissing, hfirst⟩)

end PagedKernel.Mmu
