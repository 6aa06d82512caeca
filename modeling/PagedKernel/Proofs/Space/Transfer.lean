import PagedKernel.Proofs.Space.Edit

/-! Linking and unlinking a table, filling and clearing an entry. Each keeps a
space sound and moves one frame at most: a loose frame gets its claim, or a
claimed frame becomes loose. -/

namespace PagedKernel.Mmu

variable {v : Mmu} {f table : Frame} {slot i : EntryIndex}

section Link

theorem leaf_link (hv : v.Framed) (hn : v.table? slot.val = none) (hf : f ≠ v.space.directory)
    (hz : v.machine.ram.words f = .zero) (user : Bool) :
    (v.withLink slot (.ofTable f user)).leaf = v.leaf := by
  have hd := hv.directory_installed
  funext page
  by_cases hs : page / 1024 = slot.val
  · have hl := table?_withLink hd slot (.ofTable f user) (page / 1024)
    rw [if_pos hs, DirectoryEntry.table?_ofTable] at hl
    rw [leaf_of_table hl, leaf_of_unlinked (hs ▸ hn), cell_withLink hd _ _ hf, cell, hz]
    exact PageTable.get_zero _
  · exact leaf_withLink hv slot _ hs

theorem leaf_unlink (hv : v.Sound) (he : v.presentBelow slot.val = ∅) :
    (v.withLink slot .zero).leaf = v.leaf := by
  have hd := hv.directory_installed
  funext page
  by_cases hs : page / 1024 = slot.val
  · have hl := table?_withLink hd slot .zero (page / 1024)
    rw [if_pos hs] at hl
    have hp : (v.leaf page).isPresent = false := by
      apply Bool.eq_false_iff.mpr
      intro hp
      have hm := mem_presentBelow hp
      rw [hs, he] at hm
      exact Finset.notMem_empty _ hm
    rw [leaf_of_unlinked hl, hv.absent hp]
  · exact leaf_withLink hv.framed slot _ hs

theorem Sound.withLink {e : DirectoryEntry} (hv : v.Sound)
    (hl : (v.withLink slot e).leaf = v.leaf)
    (hi : ∀ f, e.table? = some f → v.machine.ram.installed f)
    (hu : ∀ {c c' f}, (v.withLink slot e).Claims c f → (v.withLink slot e).Claims c' f → c = c') :
    (v.withLink slot e).Sound where
  pool := hv.pool
  directory_installed := (Ram.installed_change _).mpr hv.directory_installed
  table_installed := by
    intro s t h
    apply (Ram.installed_change _).mpr
    rw [table?_withLink hv.directory_installed] at h
    split at h
    · exact hi t h
    · exact hv.table_installed h
  unique := hu
  occupancy := by
    intro s h
    simp only [presentBelow, hl]
    exact hv.occupancy s h
  absent := by
    intro page
    rw [hl]
    exact hv.absent
  offered := by
    intro page h
    rw [hl]
    exact hv.offered h
  null := by
    rw [hl]
    exact hv.null

theorem held_withLink {e : DirectoryEntry} (hv : v.Sound)
    (hl : (v.withLink slot e).leaf = v.leaf) (r : Role) :
    (v.withLink slot e).held r = if r = .table slot.val then e.table? else v.held r := by
  cases r with
  | directory => rfl
  | table s =>
    simp only [held, table?_withLink hv.directory_installed, Role.table.injEq]
  | page page => simp only [held, hl, reduceCtorEq, if_false]

theorem Sound.link (hv : v.Sound) (hn : v.table? slot.val = none) (hf : ¬ v.Covers f)
    (hi : v.machine.ram.installed f) (hz : v.machine.ram.words f = .zero) (user : Bool) :
    Moved f (· = some (.table slot.val)) v (v.withLink slot (.ofTable f user)) ∧
      (v.withLink slot (.ofTable f user)).Sound := by
  have hl := leaf_link hv.framed hn (ne_directory_of_loose hf) hz user
  have hm : Moved f (· = some (.table slot.val)) v (v.withLink slot (.ofTable f user)) :=
    Moved.settle hf hn (fun _ => .rfl) (held_withLink hv hl)
  refine ⟨hm, hv.withLink hl ?_ (hm.unique hv fun _ _ h h' => h.trans h'.symm)⟩
  intro g hg
  rw [DirectoryEntry.table?_ofTable] at hg
  exact Option.some.inj hg ▸ hi

theorem Sound.unlink (hv : v.Sound) (ht : v.table? slot.val = some table)
    (he : v.presentBelow slot.val = ∅) :
    Moved table (fun _ => False) v (v.withLink slot .zero) ∧ (v.withLink slot .zero).Sound := by
  have hl := leaf_unlink hv he
  have hm : Moved table (fun _ => False) v (v.withLink slot .zero) :=
    Moved.loosen (q := .table slot.val) hv ht (fun _ => .rfl) (held_withLink hv hl)
  exact ⟨hm, hv.withLink hl nofun (hm.unique hv fun _ _ h => h.elim)⟩

theorem Framed.view_allowUser (hv : v.Framed) :
    (v.withLink slot ((v.link slot.val).withUserAccess true)).table? = v.table? ∧
      (v.withLink slot ((v.link slot.val).withUserAccess true)).leaf = v.leaf := by
  have hd := hv.directory_installed
  have htable : (v.withLink slot ((v.link slot.val).withUserAccess true)).table? = v.table? := by
    funext s
    rw [table?_withLink hd, DirectoryEntry.table?_withUserAccess]
    split
    · next hs => rw [hs, table?]
    · rfl
  refine ⟨htable, ?_⟩
  funext page
  cases hs : v.table? (page / 1024) with
  | none => rw [leaf_of_unlinked hs, leaf_of_unlinked (by rw [htable, hs])]
  | some other =>
    rw [leaf_of_table hs, leaf_of_table (by rw [htable, hs]),
      cell_withLink hd _ _ (hv.table_ne_directory hs)]

theorem Sound.allowUser (hv : v.Sound) :
    (v.withLink slot ((v.link slot.val).withUserAccess true)).Sound := by
  obtain ⟨htable, hl⟩ := @Framed.view_allowUser v slot hv.framed
  exact hv.congr rfl rfl (fun _ => Ram.installed_change _) ⟨htable, hl, held_eq rfl htable hl⟩

end Link

section Entry

variable {e : TableEntry} {count : Nat}

theorem held_withEntry (hv : v.Framed) (ht : v.table? slot.val = some table) (r : Role) :
    (v.withEntry table slot i e count).held r =
      if r = .page (1024 * slot.val + i.val) then
        if e.isPresent && !e.isBorrowed then some e.frame else none
      else v.held r := by
  cases r with
  | directory => rfl
  | table s =>
    simp only [reduceCtorEq, if_false]
    exact congrFun (table?_withEntry hv ht e count) s
  | page page =>
    simp only [held, leaf_withEntry hv ht, Role.page.injEq]
    split <;> rfl

theorem presentBelow_withEntry (hv : v.Sound) (ht : v.table? slot.val = some table) (s : Nat) :
    (v.withEntry table slot i e count).presentBelow s =
      if s = slot.val then
        if e.isPresent then insert i.val (v.presentBelow s) else (v.presentBelow s).erase i.val
      else v.presentBelow s := by
  have hi : i.val < 1024 := i.isLt
  ext k
  simp only [presentBelow, leaf_withEntry hv.framed ht]
  by_cases hs : s = slot.val
  · subst hs
    rw [if_pos rfl]
    by_cases hk : k = i.val
    · subst hk
      cases he : e.isPresent <;> simp [he, hi]
    · have hne : 1024 * slot.val + k ≠ 1024 * slot.val + i.val := by omega
      cases e.isPresent <;> simp [hk]
  · rw [if_neg hs]
    simp only [Finset.mem_filter, Finset.mem_range]
    refine and_congr_right fun hk => ?_
    rw [if_neg (by omega)]

theorem Sound.withEntry (hv : v.Sound) (ht : v.table? slot.val = some table)
    (hc : count = ((v.withEntry table slot i e count).presentBelow slot.val).card)
    (he : e.isPresent = false → e = .zero)
    (ho : v.space.isAvailable (1024 * slot.val + i.val) = true → e.isPresent = false)
    (hn : 1024 * slot.val + i.val = 0 → e.isPresent = false)
    (hu : ∀ {c c' f}, (v.withEntry table slot i e count).Claims c f →
      (v.withEntry table slot i e count).Claims c' f → c = c') :
    (v.withEntry table slot i e count).Sound where
  pool := hv.pool
  directory_installed := (Ram.installed_change _).mpr hv.directory_installed
  table_installed := by
    intro s t h
    rw [table?_withEntry hv.framed ht] at h
    exact (Ram.installed_change _).mpr (hv.table_installed h)
  unique := hu
  occupancy := by
    intro s h
    by_cases hs : s = slot.val
    · subst hs
      rw [← hc]
      exact Vector.getElem_set_self ..
    · rw [presentBelow_withEntry hv ht, if_neg hs, ← hv.occupancy s h]
      exact Vector.getElem_set_ne slot.isLt h (Ne.symm hs)
  absent := by
    intro page
    rw [leaf_withEntry hv.framed ht]
    split
    · exact he
    · exact hv.absent
  offered := by
    intro page h
    rw [leaf_withEntry hv.framed ht]
    split
    · next hp => exact ho (hp ▸ h)
    · exact hv.offered h
  null := by
    refine ⟨hv.null.1, ?_⟩
    rw [leaf_withEntry hv.framed ht]
    split
    · next hp => exact hn hp.symm
    · exact hv.null.2

theorem Sound.fill (hv : v.Sound) (ht : v.table? slot.val = some table)
    (ha : (v.leaf (1024 * slot.val + i.val)).isPresent = false)
    (ho : v.space.isAvailable (1024 * slot.val + i.val) = false)
    (hn : 1024 * slot.val + i.val ≠ 0) (hp : e.isPresent = true)
    (hf : e.isBorrowed = false → ¬ v.Covers e.frame)
    (hc : count = (v.presentBelow slot.val).card + 1) :
    (∀ g, (v.withEntry table slot i e count).Covers g ↔
        v.Covers g ∨ e.isBorrowed = false ∧ g = e.frame) ∧
      (v.withEntry table slot i e count).Sound := by
  have hempty : v.held (.page (1024 * slot.val + i.val)) = none := by
    simp only [held, ha, Bool.false_and, Bool.false_eq_true, if_false]
  have hheld := @held_withEntry v table slot i e count hv.framed ht
  have hnot : i.val ∉ v.presentBelow slot.val := by
    intro hm
    rw [(mem_presentBelow_iff.mp hm).2] at ha
    cases ha
  have hcount : count = ((v.withEntry table slot i e count).presentBelow slot.val).card := by
    rw [presentBelow_withEntry hv ht, if_pos rfl, if_pos hp, Finset.card_insert_of_notMem hnot, hc]
  have hmk := hv.withEntry (e := e) ht hcount (by simp [hp]) (by simp [ho]) (absurd · hn)
  cases hb : e.isBorrowed with
  | false =>
    simp only [hp, hb, Bool.not_false, Bool.and_self, if_true] at hheld
    have hm : Moved e.frame (· = some (.page (1024 * slot.val + i.val))) v
        (v.withEntry table slot i e count) := Moved.settle (hf hb) hempty (fun _ => .rfl) hheld
    refine ⟨?_, hmk (hm.unique hv fun _ _ h h' => h.trans h'.symm)⟩
    intro g
    rw [hm.covers]
    by_cases hg : g = e.frame <;> simp [hg]
  | true =>
    simp only [hb, Bool.not_true, Bool.and_false, Bool.false_eq_true, if_false] at hheld
    have hsame : (v.withEntry table slot i e count).Claims = v.Claims :=
      claims_of_vacant hempty (fun _ => .rfl) hheld
    refine ⟨?_, hmk (fun h h' => hv.unique (hsame ▸ h) (hsame ▸ h'))⟩
    intro g
    simp [Covers, hsame]

theorem Sound.clear (hv : v.Sound) (ht : v.table? slot.val = some table)
    (hp : (v.leaf (1024 * slot.val + i.val)).isPresent = true)
    (hc : count + 1 = (v.presentBelow slot.val).card) :
    (∀ g, (v.withEntry table slot i .zero count).Covers g ↔
        v.Covers g ∧ v.held (.page (1024 * slot.val + i.val)) ≠ some g) ∧
      (v.withEntry table slot i .zero count).Sound := by
  have hheld := @held_withEntry v table slot i .zero count hv.framed ht
  have hmem : i.val ∈ v.presentBelow slot.val := mem_presentBelow_iff.mpr ⟨i.isLt, hp⟩
  have hcount : count = ((v.withEntry table slot i .zero count).presentBelow slot.val).card := by
    rw [presentBelow_withEntry hv ht, if_pos rfl, if_neg (by decide), Finset.card_erase_of_mem hmem]
    omega
  have hmk := hv.withEntry (i := i) (e := .zero) ht hcount (fun _ => rfl) (fun _ => rfl)
    (fun _ => rfl)
  have hzero : (TableEntry.zero.isPresent && !TableEntry.zero.isBorrowed) = false := rfl
  simp only [hzero, Bool.false_eq_true, if_false] at hheld
  cases hr : v.held (.page (1024 * slot.val + i.val)) with
  | some f =>
    have hm : Moved f (fun _ => False) v (v.withEntry table slot i .zero count) :=
      Moved.loosen hv hr (fun _ => .rfl) hheld
    refine ⟨?_, hmk (hm.unique hv fun _ _ h => h.elim)⟩
    intro g
    rw [hm.covers]
    by_cases hg : g = f
    · simp [hg]
    · simp [hg, Ne.symm hg]
  | none =>
    have hsame : (v.withEntry table slot i .zero count).Claims = v.Claims :=
      claims_of_vacant hr (fun _ => .rfl) hheld
    refine ⟨?_, hmk (fun h h' => hv.unique (hsame ▸ h) (hsame ▸ h'))⟩
    intro g
    simp [Covers, hsame]

end Entry

end PagedKernel.Mmu
