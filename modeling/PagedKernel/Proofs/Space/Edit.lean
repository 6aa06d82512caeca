import PagedKernel.Proofs.Space.Sound

/-! The elementary changes of a space and what each does to its view: a new pool,
new marks on pages, new contents of one frame, a link, an entry. Every operation
on a space is a sequence of these. -/

namespace PagedKernel.Mmu

def withPool (v : Mmu) (pool : FramePool) : Mmu :=
  ⟨⟨v.machine.ram, pool⟩, v.space⟩

def withPages (v : Mmu) (pages : Bitmap pageCount) : Mmu :=
  ⟨v.machine, ⟨v.space.directory, pages, v.space.occupancy⟩⟩

def withFrame (v : Mmu) (f : Frame) (change : FrameWords → FrameWords) : Mmu :=
  ⟨⟨v.machine.ram.change f change, v.machine.pool⟩, v.space⟩

def withLink (v : Mmu) (slot : EntryIndex) (e : DirectoryEntry) : Mmu :=
  v.withFrame v.space.directory fun words => ((PageDirectory.mk words).set slot e).words

def withEntry (v : Mmu) (table : Frame) (slot i : EntryIndex) (e : TableEntry) (count : Nat) :
    Mmu :=
  ⟨⟨v.machine.ram.change table fun words => ((PageTable.mk words).set i e).words,
    v.machine.pool⟩, ⟨v.space.directory, v.space.virtualPages,
      v.space.occupancy.set slot.val count slot.isLt⟩⟩

variable {v : Mmu} {f : Frame}

theorem Sound.withPool {pool : FramePool} (hv : v.Sound) (hp : pool.Sound)
    (hf : ∀ f, pool.isAvailable f = true → v.available f ∨ ¬ v.Covers f) :
    (v.withPool pool).Sound where
  pool := hp
  directory_installed := hv.directory_installed
  table_installed := hv.table_installed
  occupancy := hv.occupancy
  absent := hv.absent
  offered := hv.offered
  null := hv.null
  unique := by
    have hpool : ∀ {role f}, pool.isAvailable f = true → v.held role = some f → False := by
      intro role f ha hr
      rcases hf f ha with h | h
      · exact hv.not_available hr h
      · exact h ⟨some role, hr⟩
    intro c c' f hc hc'
    cases c with
    | none =>
      cases c' with
      | none => rfl
      | some role => exact (hpool hc hc').elim
    | some role =>
      cases c' with
      | none => exact (hpool hc' hc).elim
      | some role' => exact hv.unique (c := some role) (d := some role') hc hc'

theorem Sound.withPages {pages : Bitmap pageCount} (hv : v.Sound)
    (ho : ∀ page, (v.withPages pages).space.isAvailable page = true →
      (v.leaf page).isPresent = false)
    (hn : (v.withPages pages).space.isAvailable 0 = false) : (v.withPages pages).Sound where
  pool := hv.pool
  directory_installed := hv.directory_installed
  table_installed := hv.table_installed
  occupancy := hv.occupancy
  absent := hv.absent
  offered := ho _
  null := ⟨hn, hv.null.2⟩
  unique {c c' f} hc hc' := by
    cases c <;> cases c' <;> exact hv.unique (v := v) (c := _) (d := _) hc hc'

theorem view_withFrame (hi : v.machine.ram.installed f)
    (hd : f ≠ v.space.directory) (ht : ∀ slot, v.table? slot ≠ some f)
    (change : FrameWords → FrameWords) :
    (v.withFrame f change).link = v.link ∧ (v.withFrame f change).table? = v.table? ∧
      (v.withFrame f change).leaf = v.leaf ∧ (v.withFrame f change).held = v.held := by
  apply view_congr (v := v) (w := v.withFrame f change) rfl
  · simp only [withFrame, Ram.words_change hi, if_neg (Ne.symm hd)]
  · intro slot table hs
    have hne : table ≠ f := by
      rintro rfl
      exact ht slot hs
    simp only [withFrame, Ram.words_change hi, if_neg hne]

theorem Sound.congr {w : Mmu} (hv : v.Sound) (hs : w.space = v.space)
    (hp : w.machine.pool = v.machine.pool)
    (hi : ∀ f, w.machine.ram.installed f ↔ v.machine.ram.installed f)
    (hview : w.table? = v.table? ∧ w.leaf = v.leaf ∧ w.held = v.held) : w.Sound := by
  obtain ⟨ht, hl, hh⟩ := hview
  have hc : w.Claims = v.Claims := by
    funext c f
    cases c with
    | none => simp only [Claims, available, hp]
    | some role => simp only [Claims, hh]
  refine ⟨hp ▸ hv.pool, ?_, ?_, ?_, ?_, ?_, ?_, ?_⟩
  · rw [hi, hs]
    exact hv.directory_installed
  · intro slot f h
    rw [hi]
    exact hv.table_installed (ht ▸ h)
  · intro c c' f h h'
    rw [hc] at h h'
    exact hv.unique h h'
  · intro slot h
    simp only [hs, presentBelow, hl]
    exact hv.occupancy slot h
  · intro page h
    rw [hl] at h ⊢
    exact hv.absent h
  · intro page h
    rw [hs] at h
    rw [hl]
    exact hv.offered h
  · rw [hs, hl]
    exact hv.null

theorem Sound.withFrame (hv : v.Sound) (hi : v.machine.ram.installed f)
    (hd : f ≠ v.space.directory) (ht : ∀ slot, v.table? slot ≠ some f)
    (change : FrameWords → FrameWords) : (v.withFrame f change).Sound :=
  hv.congr rfl rfl (fun _ => Ram.installed_change change) (view_withFrame hi hd ht change).2

/-! Links -/

theorem link_withLink (hd : v.machine.ram.installed v.space.directory) (slot : EntryIndex)
    (e : DirectoryEntry) (s : Nat) :
    (v.withLink slot e).link s = if s = slot.val then e else v.link s := by
  simp only [link, withLink, withFrame, Ram.words_change hd, if_true]
  by_cases hs : s < entriesPerTable
  · rw [dif_pos hs, dif_pos hs]
    have hget := PageDirectory.get_set ⟨v.machine.ram.words v.space.directory⟩ slot ⟨s, hs⟩ e
    simp only [Fin.ext_iff, eq_comm (a := slot.val)] at hget
    exact hget
  · have hne : s ≠ slot.val := fun h => hs (h ▸ slot.isLt)
    rw [dif_neg hs, dif_neg hs, if_neg hne]

theorem table?_withLink (hd : v.machine.ram.installed v.space.directory) (slot : EntryIndex)
    (e : DirectoryEntry) (s : Nat) :
    (v.withLink slot e).table? s = if s = slot.val then e.table? else v.table? s := by
  simp only [table?, link_withLink hd]
  split <;> rfl

theorem cell_withLink (hd : v.machine.ram.installed v.space.directory) (slot : EntryIndex)
    (e : DirectoryEntry) {table : Frame} (ht : table ≠ v.space.directory) (page : Nat) :
    (v.withLink slot e).cell table page = v.cell table page := by
  simp only [cell, withLink, withFrame, Ram.words_change hd, if_neg ht]

theorem leaf_withLink (hv : v.Framed) (slot : EntryIndex) (e : DirectoryEntry) {page : Nat}
    (h : page / 1024 ≠ slot.val) : (v.withLink slot e).leaf page = v.leaf page := by
  have ht := table?_withLink hv.directory_installed slot e (page / 1024)
  rw [if_neg h] at ht
  cases hs : v.table? (page / 1024) with
  | none => rw [leaf_of_unlinked hs, leaf_of_unlinked (by rw [ht, hs])]
  | some table =>
    rw [leaf_of_table hs, leaf_of_table (by rw [ht, hs]),
      cell_withLink hv.directory_installed _ _ (hv.table_ne_directory hs)]

/-! Entries -/

section Entry

variable {table : Frame} {slot i : EntryIndex}

theorem link_withEntry (hv : v.Framed) (ht : v.table? slot.val = some table) (e : TableEntry)
    (count : Nat) : (v.withEntry table slot i e count).link = v.link := by
  funext s
  have hi := hv.table_installed ht
  have hd := Ne.symm (hv.table_ne_directory ht)
  simp only [link, withEntry, Ram.words_change hi, if_neg hd]

theorem table?_withEntry (hv : v.Framed) (ht : v.table? slot.val = some table) (e : TableEntry)
    (count : Nat) : (v.withEntry table slot i e count).table? = v.table? := by
  funext s
  simp only [table?, link_withEntry hv ht]

theorem leaf_withEntry (hv : v.Framed) (ht : v.table? slot.val = some table) (e : TableEntry)
    (count page : Nat) :
    (v.withEntry table slot i e count).leaf page =
      if page = 1024 * slot.val + i.val then e else v.leaf page := by
  have hi := hv.table_installed ht
  have hti := table?_withEntry (i := i) hv ht e count
  have hlt : i.val < 1024 := i.isLt
  cases hs : v.table? (page / 1024) with
  | none =>
    have hne : page ≠ 1024 * slot.val + i.val := by
      rintro rfl
      rw [show (1024 * slot.val + i.val) / 1024 = slot.val by omega, ht] at hs
      cases hs
    rw [leaf_of_unlinked hs, leaf_of_unlinked (by rw [hti, hs]), if_neg hne]
  | some other =>
    rw [leaf_of_table hs, leaf_of_table (by rw [hti, hs])]
    simp only [cell, withEntry, Ram.words_change hi]
    by_cases ho : other = table
    · subst ho
      have hslot := hv.slot_unique hs ht
      have hget := PageTable.get_set ⟨v.machine.ram.words other⟩ i
        ⟨page % 1024, Nat.mod_lt _ (by decide)⟩ e
      rw [if_pos rfl]
      refine hget.trans ?_
      have hpage : i = ⟨page % 1024, Nat.mod_lt _ (by decide)⟩ ↔
          page = 1024 * slot.val + i.val := by
        rw [Fin.ext_iff]
        simp only
        omega
      simp only [hpage]
    · have hne : page ≠ 1024 * slot.val + i.val := by
        rintro rfl
        rw [show (1024 * slot.val + i.val) / 1024 = slot.val by omega, ht] at hs
        exact ho (Option.some.inj hs).symm
      rw [if_neg ho, if_neg hne]

end Entry

end PagedKernel.Mmu
