import PagedKernel.Proofs.Space.Primitive

/-! Page tables on demand: taking a frame from the pool and giving it back,
linking a table where there is none, and unlinking one without entries. -/

namespace PagedKernel.Mmu

variable {v w : Mmu} {f : Frame} {slot : EntryIndex} {gap : Prop}

theorem Sound.words_withLink (hv : v.Sound) (e : DirectoryEntry) (hf : ¬ v.Covers f) :
    (v.withLink slot e).machine.ram.words f = v.machine.ram.words f :=
  (Ram.words_change hv.directory_installed _ f).trans (if_neg (ne_directory_of_loose hf))

theorem Sound.words_withEntry {n : Nat} {table : Frame} (hv : v.Sound)
    (ht : v.table? n = some table) (i : EntryIndex) (e : TableEntry) (count : Nat)
    (hf : ¬ v.Covers f) :
    (v.withEntry table slot i e count).machine.ram.words f = v.machine.ram.words f :=
  (Ram.words_change (hv.table_installed ht) _ f).trans (if_neg (ne_table_of_loose hf ht))

theorem Sound.pagesKept_withLink {e : DirectoryEntry} (hv : v.Sound)
    (hl : (v.withLink slot e).leaf = v.leaf) : PagesKept v (v.withLink slot e) := by
  refine .of_leaf hl fun p g hg => ?_
  exact (Ram.words_change hv.directory_installed _ g).trans (if_neg (hv.page_ne_directory hg))

theorem Sound.take (hv : v.Sound) (ha : v.machine.pool.alloc.1 = some f) :
    (v.withPool v.machine.pool.alloc.2).Sound ∧
      ∀ g, (v.withPool v.machine.pool.alloc.2).Covers g ↔ v.Covers g ∧ g ≠ f := by
  obtain ⟨hf, hav, -⟩ := FramePool.alloc_eq_some ha
  refine ⟨hv.withPool (FramePool.alloc_sound hv.pool) fun g hg => .inl ((hav g).mp hg).1, ?_⟩
  intro g
  rw [covers_iff, covers_iff]
  have hheld : ∀ role, v.held role = some g → g ≠ f := by
    rintro role hr rfl
    exact hv.not_available hr hf
  constructor
  · rintro (h | ⟨role, h⟩)
    · exact ⟨.inl ((hav g).mp h).1, ((hav g).mp h).2⟩
    · exact ⟨.inr ⟨role, h⟩, hheld role h⟩
  · rintro ⟨h | ⟨role, h⟩, hg⟩
    · exact .inl ((hav g).mpr ⟨h, hg⟩)
    · exact .inr ⟨role, h⟩

theorem Sound.give (hv : v.Sound) (hf : ¬ v.Covers f) :
    (v.machine.pool.free f).1 = .ok () ∧ (v.withPool (v.machine.pool.free f).2).Sound ∧
      ∀ g, (v.withPool (v.machine.pool.free f).2).Covers g ↔ v.Covers g ∨ g = f := by
  have hna : v.machine.pool.isAvailable f = false :=
    Bool.eq_false_iff.mpr fun h => hf ⟨none, h⟩
  obtain ⟨hok, hs, hav⟩ := FramePool.free_of_taken hv.pool hna
  refine ⟨hok, hv.withPool hs ?_, ?_⟩
  · intro g hg
    rcases (hav g).mp hg with h | rfl
    · exact .inl h
    · exact .inr hf
  · intro g
    rw [covers_iff, covers_iff]
    have hpool : (v.withPool (v.machine.pool.free f).2).available g ↔ v.available g ∨ g = f := hav g
    rw [hpool]
    exact or_right_comm

/-- All links are alike: present ones are writable and allow user code or do not,
the others are zero. -/
def Uniform (user : Bool) (v : Mmu) : Prop :=
  ∀ slot, v.link slot = (v.table? slot).elim .zero (.ofTable · user)

theorem Uniform.withLink {user : Bool} {e : DirectoryEntry} (hv : v.Sound) (hu : v.Uniform user)
    (he : e = e.table?.elim .zero (.ofTable · user)) : (v.withLink slot e).Uniform user := by
  intro s
  rw [link_withLink hv.directory_installed, table?_withLink hv.directory_installed]
  split
  · exact he
  · exact hu s

/-- Links are writable and lead to tables, and a page for user code lies below a link
that allows it. -/
structure Guarded (v : Mmu) : Prop where
  links : ∀ slot, ∃ user, v.link slot = (v.table? slot).elim .zero (.ofTable · user)
  user : ∀ page, (v.leaf page).isPresent = true → (v.leaf page).isUser = true →
    (v.link (page / 1024)).flags.userAccess = true

theorem Guarded.congr (hv : v.Guarded) (hl : w.link = v.link) (hleaf : w.leaf = v.leaf) :
    w.Guarded := by
  have ht : w.table? = v.table? := funext fun slot => congrArg _ (congrFun hl slot)
  refine ⟨fun slot => ?_, fun page hp hu => ?_⟩
  · rw [hl, ht]
    exact hv.links slot
  · rw [hleaf] at hp hu
    rw [hl]
    exact hv.user page hp hu

theorem Guarded.withLink {e : DirectoryEntry} (user : Bool) (hv : v.Sound) (hg : v.Guarded)
    (hleaf : (v.withLink slot e).leaf = v.leaf) (he : e = e.table?.elim .zero (.ofTable · user))
    (hu : (v.link slot.val).flags.userAccess = true → (v.presentBelow slot.val).Nonempty →
      e.flags.userAccess = true) : (v.withLink slot e).Guarded := by
  have hlink := link_withLink hv.directory_installed slot e
  refine ⟨fun s => ?_, fun page hp huser => ?_⟩
  · rw [hlink, table?_withLink hv.directory_installed]
    split
    · exact ⟨user, he⟩
    · exact hg.links s
  · rw [hleaf] at hp huser
    have hallowed := hg.user page hp huser
    rw [hlink]
    split
    · next hs =>
      rw [hs] at hallowed
      exact hu hallowed ⟨_, hs ▸ mem_presentBelow hp⟩
    · exact hallowed

/-- The first available frame was taken from the pool and zeroed; it is loose. -/
structure Loosened (v w : Mmu) (f : Frame) : Prop where
  sound : w.Sound
  space : w.space = v.space
  link : w.link = v.link
  tables : w.table? = v.table?
  leaf : w.leaf = v.leaf
  first : v.machine.pool.alloc.1 = some f
  covers : ∀ g, w.Covers g ↔ v.Covers g ∧ g ≠ f
  installed : ∀ g, w.machine.ram.installed g ↔ v.machine.ram.installed g
  present : w.machine.ram.installed f
  zeroed : w.machine.ram.words f = .zero
  kept : ∀ g, g ≠ f → w.machine.ram.words g = v.machine.ram.words g

theorem Loosened.taken (h : Loosened v w f) : v.available f :=
  (FramePool.alloc_eq_some h.first).1

theorem Loosened.loose (h : Loosened v w f) : ¬ w.Covers f := by
  rw [h.covers]
  exact fun hf => hf.2 rfl

theorem Loosened.pages (hv : v.Sound) (h : Loosened v w f) : PagesKept v w := by
  refine .of_leaf h.leaf fun p g hg => h.kept g ?_
  rintro rfl
  exact hv.not_available hg h.taken

theorem Sound.loosened (hv : v.Sound) (ha : v.machine.pool.alloc.1 = some f)
    (hi : v.machine.ram.installed f) :
    Loosened v ((v.withPool v.machine.pool.alloc.2).withFrame f fun _ => FrameWords.zero) f := by
  obtain ⟨hs, hcov⟩ := hv.take ha
  have hloose : ¬ (v.withPool v.machine.pool.alloc.2).Covers f := by
    rw [hcov]
    exact fun h => h.2 rfl
  have hd := ne_directory_of_loose hloose
  have ht : ∀ slot, (v.withPool v.machine.pool.alloc.2).table? slot ≠ some f :=
    fun _ h => ne_table_of_loose hloose h rfl
  obtain ⟨hlink, htable, hleaf, hheld⟩ :=
    view_withFrame (v := v.withPool v.machine.pool.alloc.2) hi hd ht fun _ => FrameWords.zero
  refine ⟨hs.withFrame hi hd ht _, rfl, hlink, htable, hleaf, ha, ?_,
    fun _ => Ram.installed_change _, (Ram.installed_change _).mpr hi, ?_, ?_⟩
  · intro g
    rw [← hcov, covers_iff, covers_iff, hheld]
    rfl
  · exact (Ram.words_change hi _ f).trans (if_pos rfl)
  · exact fun g hg => (Ram.words_change hi _ g).trans (if_neg hg)

structure Ensured (v w : Mmu) (slot : Nat) (table : Frame) (user : Bool) : Prop where
  sound : w.Sound
  step : Step none v w
  space : w.space = v.space
  leaf : w.leaf = v.leaf
  tables : ∀ s, w.table? s = if s = slot then some table else v.table? s
  kept : ∀ f, v.table? slot = some f → table = f
  first : v.table? slot = none → v.machine.pool.alloc.1 = some table
  uniform : v.Uniform user → w.Uniform user
  guarded : v.Guarded → w.Guarded
  allows : user = true → (w.link slot).flags.userAccess = true
  pages : PagesKept v w

theorem table?_of_linked {table : Frame} (ht : v.table? slot.val = some table) (s : Nat) :
    v.table? s = if s = slot.val then some table else v.table? s := by
  split
  · next h => rw [h, ht]
  · rfl

theorem Ensured.refl {table : Frame} {user : Bool} (hv : v.Sound)
    (ht : v.table? slot.val = some table)
    (hup : (user && !(v.link slot.val).flags.userAccess) = false) :
    Ensured v v slot.val table user := by
  refine ⟨hv, .refl v, rfl, rfl, table?_of_linked ht, ?_, ?_, id, id, ?_, .refl v⟩
  · exact fun f hf => Option.some.inj (ht.symm.trans hf)
  · exact fun hn => nomatch ht.symm.trans hn
  · rintro rfl
    simpa using hup

theorem Sound.upgraded {table : Frame} {user : Bool} (hv : v.Sound)
    (ht : v.table? slot.val = some table)
    (hup : (user && !(v.link slot.val).flags.userAccess) = true) :
    Ensured v (v.withLink slot ((v.link slot.val).withUserAccess true)) slot.val table user := by
  obtain ⟨htable, hleaf⟩ := @Framed.view_allowUser v slot hv.framed
  have hheld : (v.withLink slot ((v.link slot.val).withUserAccess true)).held = v.held :=
    held_eq rfl htable hleaf
  refine ⟨hv.allowUser, ⟨fun _ => Ram.installed_change _, rfl, ?_, fun _ => hv.words_withLink _⟩, rfl,
    hleaf, ?_, fun f hf => Option.some.inj (ht.symm.trans hf),
    fun hn => absurd (ht.symm.trans hn) (Option.some_ne_none _), ?_, ?_, ?_,
    hv.pagesKept_withLink hleaf⟩
  · intro f
    simp only [covers_iff, hheld, reduceCtorEq, or_false]
    rfl
  · intro s
    rw [htable]
    exact table?_of_linked ht s
  · intro hu
    have hl := hu slot.val
    rw [ht] at hl
    simp only [hl, Option.elim_some, DirectoryEntry.ofTable, Bool.and_eq_true,
      Bool.not_eq_true'] at hup
    exact absurd (hup.1.symm.trans hup.2) (by decide)
  · intro hg
    obtain ⟨_, hl⟩ := hg.links slot.val
    refine hg.withLink true hv hleaf ?_ fun _ _ => rfl
    rw [ht] at hl
    rw [hl]
    rfl
  · intro _
    rw [link_withLink hv.directory_installed, if_pos rfl]
    rfl

theorem Loosened.linked {table : Frame} (hv : v.Sound) (hl : Loosened v w table)
    (ht : v.table? slot.val = none) (user : Bool) :
    Ensured v (w.withLink slot (.ofTable table user)) slot.val table user := by
  have hn : w.table? slot.val = none := (congrFun hl.tables slot.val).trans ht
  obtain ⟨hm, hfinal⟩ := hl.sound.link hn hl.loose hl.present hl.zeroed user
  have hleaf := leaf_link hl.sound.framed hn (ne_directory_of_loose hl.loose) hl.zeroed user
  refine ⟨hfinal, ⟨?_, congrArg _ hl.space, ?_, ?_⟩, hl.space, hleaf.trans hl.leaf, ?_, ?_,
    fun _ => hl.first, ?_, ?_, ?_, (hl.pages hv).trans (hl.sound.pagesKept_withLink hleaf)⟩
  · exact fun f => (Ram.installed_change _).trans (hl.installed f)
  · intro f
    rw [hm.covers, hl.covers]
    by_cases hf : f = table
    · subst hf
      simp only [if_true, exists_eq, true_iff, reduceCtorEq, or_false]
      exact ⟨none, hl.taken⟩
    · simp [hf]
  · intro f hf
    have hfw : ¬ w.Covers f := fun h => hf ((hl.covers f).mp h).1
    refine (hl.sound.words_withLink _ hfw).trans (hl.kept f ?_)
    rintro rfl
    exact hf ⟨none, hl.taken⟩
  · intro s
    rw [table?_withLink hl.sound.directory_installed, DirectoryEntry.table?_ofTable, hl.tables]
  · intro f hf
    rw [ht] at hf
    cases hf
  · intro hu
    refine Uniform.withLink hl.sound ?_ rfl
    intro s
    rw [hl.link, hl.tables]
    exact hu s
  · intro hg
    refine (hg.congr hl.link hl.leaf).withLink user hl.sound hleaf rfl fun hallowed _ => ?_
    obtain ⟨_, hzero⟩ := hg.links slot.val
    rw [ht] at hzero
    rw [hl.link, hzero] at hallowed
    cases hallowed
  · intro hu
    rw [link_withLink hl.sound.directory_installed, if_pos rfl]
    exact hu

def withNewTable (v : Mmu) (slot : EntryIndex) (table : Frame) (user : Bool) : Mmu :=
  ((v.withPool v.machine.pool.alloc.2).withFrame table fun _ => FrameWords.zero).withLink slot
    (.ofTable table user)

theorem ensureTable_cases {ensured : Frame → Mmu → Prop}
    (hp : v.machine.pool.Sound) (hd : v.machine.ram.installed v.space.directory)
    (slot : EntryIndex) (user : Bool)
    (hr : ∀ f, v.machine.pool.alloc.1 = some f → v.machine.ram.installed f ∨ gap)
    (hlinked : ∀ table, v.table? slot.val = some table →
      (user && !(v.link slot.val).flags.userAccess) = false → ensured table v)
    (hupgraded : ∀ table, v.table? slot.val = some table →
      (user && !(v.link slot.val).flags.userAccess) = true →
      ensured table (v.withLink slot ((v.link slot.val).withUserAccess true)))
    (hmade : ∀ table, v.table? slot.val = none → v.machine.pool.alloc.1 = some table →
      v.machine.ram.installed table → ensured table (v.withNewTable slot table user)) :
    (ensureTable slot user).Meets gap v ensured fun e w =>
      e = .outOfFrames ∧ w = v ∧ v.table? slot.val = none ∧ ∀ f, ¬ v.available f := by
  unfold ensureTable
  refine (directoryEntry_gives hd slot).lift_bind ?_
  dsimp only
  cases ht : v.table? slot.val with
  | some table =>
    rw [show (v.link slot.val).table? = some table from ht]
    dsimp only
    split
    · next hup =>
      refine (setDirectoryEntry_gives hd slot _).lift_bind ?_
      exact Call.pure_meets (hupgraded table ht hup)
    · next hup => exact Call.pure_meets (hlinked table ht (Bool.eq_false_iff.mpr hup))
  | none =>
    rw [show (v.link slot.val).table? = none from ht]
    dsimp only
    refine (takeFrame_gives v).lift_bind ?_
    cases ha : v.machine.pool.alloc.1 with
    | none =>
      obtain ⟨hsame, hnone⟩ := FramePool.alloc_eq_none ha
      refine Call.throw_meets ⟨rfl, by rw [hsame]; rfl, rfl, fun f hf => ?_⟩
      rw [available, hnone hp f] at hf
      cases hf
    | some table =>
      refine Call.lift_bind_meets (zeroFrame_meets (hr table ha)) ?_
      rintro - w ⟨hi, rfl⟩
      refine (setDirectoryEntry_gives ((Ram.installed_change _).mpr hd) slot _).lift_bind ?_
      exact Call.record_bind_meets (by rintro ⟨⟩) (Call.pure_meets (hmade table ht ha hi))

theorem ensureTable_meets (hv : v.Sound) (hr : ∀ f, v.available f → v.machine.ram.installed f ∨ gap)
    (slot : EntryIndex) (user : Bool) :
    (ensureTable slot user).Meets gap v (fun table w => Ensured v w slot.val table user)
      fun e w => e = .outOfFrames ∧ w = v ∧ v.table? slot.val = none ∧ ∀ f, ¬ v.available f := by
  refine ensureTable_cases hv.pool hv.directory_installed slot user
    (fun f ha => hr f (FramePool.alloc_eq_some ha).1) (fun table ht => .refl hv ht)
    (fun table ht => hv.upgraded ht) fun table ht ha hi => ?_
  exact (hv.loosened ha hi).linked hv ht user

/-- Links stay what they are, but some that lead to tables may be cleared. -/
def Pruned (v w : Mmu) : Prop :=
  ∀ s, w.link s = v.link s ∨ (∃ table, v.table? s = some table) ∧ w.link s = .zero

namespace Pruned

variable {x : Mmu}

theorem refl (v : Mmu) : Pruned v v :=
  fun _ => .inl rfl

theorem table?_eq (h : Pruned v w) {s : Nat} {table : Frame} (hs : w.table? s = some table) :
    v.table? s = some table := by
  rcases h s with hl | ⟨-, hl⟩
  · rw [← hs, table?, table?, hl]
  · rw [table?, hl] at hs
    cases hs

theorem trans (h : Pruned v w) (h' : Pruned w x) : Pruned v x := by
  intro s
  rcases h' s with hx | ⟨⟨table, ht⟩, hx⟩
  · rw [hx]
    exact h s
  · exact .inr ⟨⟨table, h.table?_eq ht⟩, hx⟩

end Pruned

structure Released (v w : Mmu) (slot : Nat) : Prop where
  sound : w.Sound
  step : Step none v w
  space : w.space = v.space
  leaf : w.leaf = v.leaf
  tables : ∀ s, w.table? s = if s = slot ∧ v.presentBelow slot = ∅ then none else v.table? s
  links : Pruned v w
  uniform : ∀ user, v.Uniform user → w.Uniform user
  guarded : v.Guarded → w.Guarded
  pages : PagesKept v w

theorem Released.refl (hv : v.Sound) (ht : v.presentBelow slot.val = ∅ → v.table? slot.val = none) :
    Released v v slot.val := by
  refine ⟨hv, .refl v, rfl, rfl, ?_, .refl v, fun _ => id, id, .refl v⟩
  intro s
  split
  · next h =>
    obtain ⟨rfl, hempty⟩ := h
    exact ht hempty
  · rfl

theorem Sound.released {table : Frame} (hv : v.Sound) (ht : v.table? slot.val = some table)
    (hempty : v.presentBelow slot.val = ∅) :
    (v.machine.pool.free table).1 = .ok () ∧
      Released v ((v.withLink slot .zero).withPool (v.machine.pool.free table).2) slot.val := by
  obtain ⟨hm, hs⟩ := hv.unlink ht hempty
  have hloose : ¬ (v.withLink slot .zero).Covers table := by
    rw [hm.covers, if_pos rfl]
    simp
  obtain ⟨hok, hfinal, hcov⟩ := hs.give hloose
  refine ⟨hok, hfinal, ⟨fun _ => Ram.installed_change _, rfl, ?_, fun _ => hv.words_withLink _⟩,
    rfl, leaf_unlink hv hempty, ?_, ?_, ?_, ?_, hv.pagesKept_withLink (leaf_unlink hv hempty)⟩
  · intro f
    refine (hcov f).trans ?_
    rw [hm.covers]
    by_cases hf : f = table
    · subst hf
      simp only [or_true, true_iff]
      exact .inl ⟨some (.table slot.val), ht⟩
    · simp [hf]
  · intro s
    refine (table?_withLink hv.directory_installed slot .zero s).trans ?_
    simp only [hempty, and_true]
    rfl
  · intro s
    have hl := link_withLink hv.directory_installed slot .zero s
    split at hl
    · next hs => exact .inr ⟨⟨table, hs ▸ ht⟩, hl⟩
    · exact .inl hl
  · intro user hu
    exact Uniform.withLink hv hu rfl
  · intro hg
    refine (hg.withLink true hv (leaf_unlink hv hempty) rfl fun _ hne => ?_).congr rfl rfl
    exact absurd hempty (Finset.nonempty_iff_ne_empty.mp hne)

theorem releaseTableIfEmpty_meets (hv : v.Sound) (slot : EntryIndex) :
    (releaseTableIfEmpty slot).Meets gap v fun _ w => Released v w slot.val := by
  unfold releaseTableIfEmpty
  refine (Op.read_gives fun v : Mmu => v.space.occupancy.get slot).bind ?_
  rw [hv.occupancy_get]
  rcases Finset.eq_empty_or_nonempty (v.presentBelow slot.val) with hempty | hne
  · rw [if_pos (Finset.card_eq_zero.mpr hempty)]
    refine (directoryEntry_gives hv.directory_installed slot).bind ?_
    dsimp only
    cases ht : v.table? slot.val with
    | none =>
      rw [show (v.link slot.val).table? = none from ht]
      exact Op.pure_meets (.refl hv fun _ => ht)
    | some table =>
      rw [show (v.link slot.val).table? = some table from ht]
      dsimp only
      obtain ⟨hok, hreleased⟩ := hv.released ht hempty
      refine (setDirectoryEntry_gives hv.directory_installed slot .zero).bind ((freeFrame_gives _ table).bind ?_)
      rw [show ((v.withLink slot .zero).machine.pool.free table).1 = .ok () from hok]
      exact (Op.record_gives (by rintro ⟨⟩)).meets hreleased
  · rw [if_neg (Finset.card_ne_zero.mpr hne)]
    exact Op.pure_meets (.refl hv fun h => absurd h (Finset.nonempty_iff_ne_empty.mp hne))

end PagedKernel.Mmu
