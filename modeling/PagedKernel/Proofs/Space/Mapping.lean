import PagedKernel.Proofs.Space.Tables

/-! Mapping a page and unmapping a range. Mapping changes one entry, or nothing
when it is refused; unmapping zeroes the entries of the range, or nothing. -/

namespace PagedKernel

namespace AddressSpace

theorem isAvailable_of_lt (s : AddressSpace) {page : Nat} (h : page < pageCount) :
    s.isAvailable page = s.virtualPages.bit page h := by
  rw [isAvailable, Bitmap.get?_of_lt _ h, Option.getD_some]

theorem isAvailable_of_le (s : AddressSpace) {page : Nat} (h : pageCount ≤ page) :
    s.isAvailable page = false := by
  rw [isAvailable, (Bitmap.get?_eq_none_iff _ _).mpr h, Option.getD_none]

theorem lt_of_isAvailable {s : AddressSpace} {page : Nat} (h : s.isAvailable page = true) :
    page < pageCount := by
  apply Classical.byContradiction
  intro hn
  rw [s.isAvailable_of_le (Nat.le_of_not_lt hn)] at h
  cases h

end AddressSpace

namespace Mmu

variable {v w x : Mmu} {f : Frame} {slot : EntryIndex} {gap : Prop}

theorem isAvailable_write (v : Mmu) {page : Nat} (h : page < pageCount) (value : Bool) (p : Nat) :
    (v.withPages (v.space.virtualPages.write page value h)).space.isAvailable p =
      if p = page then value else v.space.isAvailable p := by
  by_cases hp : p < pageCount
  · rw [AddressSpace.isAvailable_of_lt _ hp, AddressSpace.isAvailable_of_lt _ hp]
    exact Bitmap.bit_write _ value h hp
  · have hne : p ≠ page := fun he => hp (he ▸ h)
    rw [AddressSpace.isAvailable_of_le _ (Nat.le_of_not_lt hp),
      AddressSpace.isAvailable_of_le _ (Nat.le_of_not_lt hp), if_neg hne]

theorem isAvailable_fillFrom (v : Mmu) (value : Bool) {first stop : Nat} (h : stop ≤ pageCount)
    (p : Nat) :
    (v.withPages (v.space.virtualPages.fillFrom value first stop h)).space.isAvailable p =
      if first ≤ p ∧ p < stop then value else v.space.isAvailable p := by
  by_cases hp : p < pageCount
  · rw [AddressSpace.isAvailable_of_lt _ hp, AddressSpace.isAvailable_of_lt _ hp]
    exact Bitmap.bit_fillFrom _ value h hp
  · rw [AddressSpace.isAvailable_of_le _ (Nat.le_of_not_lt hp),
      AddressSpace.isAvailable_of_le _ (Nat.le_of_not_lt hp), if_neg (by omega)]

def withMapped (v : Mmu) (table : Frame) (va : VirtualAddress) (e : TableEntry) : Mmu :=
  (v.withPages (v.space.virtualPages.write va.pageNumber false va.pageNumber_lt)).withEntry
    table va.directoryIndex va.tableIndex e (v.space.occupancy.get va.directoryIndex + 1)

def withReserved (v : Mmu) (flags : EntryBits) (f : Frame) : Mmu :=
  if flags.borrowed then v else v.withPool (v.machine.pool.reserve f).2

/-- What mapping a page changes. -/
structure Assigned (v w : Mmu) (page : Nat) (e : TableEntry) : Prop where
  sound : w.Sound
  step : Step (if e.isBorrowed then none else some e.frame) v w
  leaf : ∀ p, w.leaf p = if p = page then e else v.leaf p
  tables : ∀ s t, v.table? s = some t → w.table? s = some t
  others : ∀ s, s ≠ page / 1024 → w.table? s = v.table? s
  offered : ∀ p, w.space.isAvailable p = if p = page then false else v.space.isAvailable p
  uniform : v.Uniform e.isUser → w.Uniform e.isUser
  guarded : v.Guarded → w.Guarded
  absent : (v.leaf page).isPresent = false
  taken : v.table? (page / 1024) = none → ∃ f, v.available f
  pages : PagesKept v w

theorem Assigned.trimmed {page : Nat} {e : TableEntry} (h : Assigned v w page e)
    (he : e.isPresent = true) (ht : v.Trimmed) : w.Trimmed := by
  intro s t hs
  by_cases hp : s = page / 1024
  · subst hp
    refine ⟨page % 1024, mem_presentBelow ?_⟩
    rw [h.leaf, if_pos rfl, he]
  · rw [h.others s hp] at hs
    obtain ⟨i, hi⟩ := ht s t hs
    obtain ⟨hlt, hpi⟩ := mem_presentBelow_iff.mp hi
    refine ⟨i, mem_presentBelow_iff.mpr ?_⟩
    rw [h.leaf, if_neg (by omega)]
    exact ⟨hlt, hpi⟩

inductive AssignRefused (v : Mmu) (va : VirtualAddress) : PagingError → Prop where
  | nullPage (h : va.pageNumber = 0) : AssignRefused v va .nullPage
  | alreadyMapped (hn : va.pageNumber ≠ 0) (h : (v.leaf va.pageNumber).isPresent = true) :
    AssignRefused v va (.alreadyMapped va.page.base)
  | outOfFrames (hn : va.pageNumber ≠ 0) (hp : (v.leaf va.pageNumber).isPresent = false)
    (ht : v.table? (va.pageNumber / 1024) = none) (ha : ∀ f, ¬ v.available f) :
    AssignRefused v va .outOfFrames

theorem Sound.offOffer (hv : v.Sound) (va : VirtualAddress) :
    (v.withPages (v.space.virtualPages.write va.pageNumber false va.pageNumber_lt)).Sound := by
  have hoffer := isAvailable_write v va.pageNumber_lt false
  refine hv.withPages (fun p h => ?_) ?_
  · rw [hoffer] at h
    split at h
    · cases h
    · exact hv.offered h
  · rw [hoffer, hv.null.1, ite_self]

theorem Framed.offOffer (hv : v.Framed) (va : VirtualAddress) :
    (v.withPages (v.space.virtualPages.write va.pageNumber false va.pageNumber_lt)).Framed :=
  hv.congr rfl (fun _ => .rfl) rfl fun _ => id

section withMapped

variable {table : Frame} {va : VirtualAddress}

theorem link_withMapped (hv : v.Framed) (ht : v.table? va.directoryIndex.val = some table)
    (e : TableEntry) : (v.withMapped table va e).link = v.link :=
  link_withEntry (hv.offOffer va) ht e _

theorem table?_withMapped (hv : v.Framed) (ht : v.table? va.directoryIndex.val = some table)
    (e : TableEntry) : (v.withMapped table va e).table? = v.table? :=
  table?_withEntry (hv.offOffer va) ht e _

theorem leaf_withMapped (hv : v.Framed) (ht : v.table? va.directoryIndex.val = some table)
    (e : TableEntry) (page : Nat) :
    (v.withMapped table va e).leaf page = if page = va.pageNumber then e else v.leaf page := by
  rw [withMapped, leaf_withEntry (hv.offOffer va) ht, va.index_pageNumber]
  rfl

end withMapped

theorem Sound.assigned {table : Frame} {e : TableEntry} (hv : v.Sound) {va : VirtualAddress}
    (ht : v.table? va.directoryIndex.val = some table) (hn : va.pageNumber ≠ 0)
    (ha : (v.leaf va.pageNumber).isPresent = false) (hp : e.isPresent = true)
    (hf : e.isBorrowed = false → ¬ v.Covers e.frame)
    (hu : e.isUser = true → (v.link va.directoryIndex.val).flags.userAccess = true) :
    Assigned v (v.withMapped table va e) va.pageNumber e := by
  have hindex := va.index_pageNumber
  have hoffer := isAvailable_write v va.pageNumber_lt false
  have hpages := hv.offOffer va
  have hcount : v.space.occupancy.get va.directoryIndex + 1 =
      (v.presentBelow va.directoryIndex.val).card + 1 :=
    congrArg (· + 1) (hv.occupancy_get va.directoryIndex)
  have hoff : (v.withPages (v.space.virtualPages.write va.pageNumber false
      va.pageNumber_lt)).space.isAvailable va.pageNumber = false := by
    rw [hoffer]
    exact if_pos rfl
  obtain ⟨hcov, hs⟩ := hpages.fill (i := va.tableIndex) ht (by rw [hindex]; exact ha)
    (by rw [hindex]; exact hoff) (by rw [hindex]; exact hn) hp hf hcount
  have hlink := link_withMapped hv.framed ht e
  have htable := table?_withMapped hv.framed ht e
  have hleaf := leaf_withMapped hv.framed ht e
  refine ⟨hs, ⟨fun _ => Ram.installed_change _, rfl, ?_, fun _ => hpages.words_withEntry ht _ _ _⟩,
    hleaf, ?_, ?_, hoffer, ?_, ?_, ha, ?_, ?_⟩
  · intro g
    refine (hcov g).trans (or_congr .rfl ?_)
    cases e.isBorrowed with
    | false => simp [eq_comm]
    | true => simp
  · intro s t h
    rwa [htable]
  · intro s _
    rw [htable]
  · intro hu s
    rw [hlink, htable]
    exact hu s
  · intro hg
    refine ⟨fun s => ?_, fun p hpp hpu => ?_⟩
    · rw [hlink, htable]
      exact hg.links s
    · rw [hleaf] at hpp hpu
      rw [hlink]
      split at hpp
      · next he =>
        rw [if_pos he] at hpu
        rw [he, ← va.directoryIndex_val]
        exact hu hpu
      · next hne =>
        rw [if_neg hne] at hpu
        exact hg.user p hpp hpu
  · rw [← va.directoryIndex_val, ht]
    exact nofun
  · intro p g hg
    have hne : p ≠ va.pageNumber := by
      rintro rfl
      rw [(held_page_eq_some.mp hg).1] at ha
      cases ha
    refine ⟨?_, ?_⟩
    · rw [held_page_eq_some, hleaf, if_neg hne, ← held_page_eq_some]
      exact hg
    · exact (Ram.words_change (hv.table_installed ht) _ g).trans (if_neg (hv.page_ne_table hg ht))

theorem fillEntry_meets {table : Frame} {e : TableEntry} {event : Event}
    {filled : Unit → Mmu → Prop} {refused : PagingError → Mmu → Prop} {va : VirtualAddress}
    (hi : v.machine.ram.installed table)
    (hocc : v.space.occupancy.get va.directoryIndex < 65535 ∨ gap) (he : event.level ≠ .error)
    (hfilled : filled () (v.withMapped table va e)) :
    Call.Meets gap (do
      liftM (setTableEntry table va.tableIndex e)
      liftM (incrementOccupancy va.directoryIndex)
      liftM (markPage va.page false)
      Call.record event) v filled refused := by
  refine (setTableEntry_gives hi va.tableIndex e).lift_bind ?_
  refine Call.lift_bind_meets (incrementOccupancy_meets (v := v.withFrame table fun words =>
    ((PageTable.mk words).set va.tableIndex e).words) hocc) ?_
  rintro - _ rfl
  refine (markPage_gives _ va.page false).lift_bind ?_
  exact Call.record_meets he hfilled

theorem Framed.withReserved (hv : v.Framed) (hp : v.machine.pool.Sound) (flags : EntryBits)
    (f : Frame) : (v.withReserved flags f).Framed := by
  unfold Mmu.withReserved
  split
  · exact hv
  · obtain ⟨-, -, havailable⟩ := FramePool.reserve_sound hp f
    exact hv.congr rfl (fun _ => .rfl) rfl fun g hg => ((havailable g).mp hg).1

theorem view_withReserved (v : Mmu) (flags : EntryBits) (f : Frame) :
    (v.withReserved flags f).space = v.space ∧
      (v.withReserved flags f).machine.ram = v.machine.ram ∧
      (v.withReserved flags f).link = v.link ∧ (v.withReserved flags f).table? = v.table? ∧
      (v.withReserved flags f).leaf = v.leaf := by
  unfold Mmu.withReserved
  split <;> exact ⟨rfl, rfl, rfl, rfl, rfl⟩

theorem Ensured.withReserved {slot : Nat} {table : Frame} {user : Bool} {flags : EntryBits}
    (h : Ensured v w slot table user) (hf : flags.borrowed = false → ¬ w.Covers f) :
    Ensured v (w.withReserved flags f) slot table user := by
  cases hb : flags.borrowed with
  | true => rwa [Mmu.withReserved, if_pos hb]
  | false =>
    obtain ⟨-, hp, hav⟩ := FramePool.reserve_sound h.sound.pool f
    have hsame : ∀ g, (w.machine.pool.reserve f).2.isAvailable g = true ↔ w.available g := by
      intro g
      rw [hav]
      refine and_iff_left_of_imp ?_
      rintro hg rfl
      exact hf hb ⟨none, hg⟩
    rw [Mmu.withReserved, if_neg (Bool.eq_false_iff.mp hb)]
    refine ⟨h.sound.withPool hp fun g hg => .inl ((hsame g).mp hg),
      ⟨h.step.installed, h.step.directory, ?_, h.step.kept⟩, h.space, h.leaf, h.tables, h.kept,
      h.first, h.uniform, fun hg => (h.guarded hg).congr rfl rfl, h.allows, h.pages⟩
    intro g
    rw [← h.step.covers, covers_iff, covers_iff]
    exact or_congr (hsame g) .rfl

theorem Ensured.assigned {page : Nat} {table : Frame} {e : TableEntry}
    (h : Ensured v w (page / 1024) table e.isUser) (h' : Assigned w x page e) :
    Assigned v x page e where
  sound := h'.sound
  step := h.step.trans h'.step
  leaf p := by rw [h'.leaf, h.leaf]
  tables s t hs := by
    apply h'.tables
    rw [h.tables]
    split
    · next he => rw [h.kept t (he ▸ hs)]
    · exact hs
  others s hs := by rw [h'.others s hs, h.tables, if_neg hs]
  offered p := by rw [h'.offered, h.space]
  uniform hu := h'.uniform (h.uniform hu)
  guarded hg := h'.guarded (h.guarded hg)
  absent := h.leaf ▸ h'.absent
  taken hn := ⟨table, (FramePool.alloc_eq_some (h.first hn)).1⟩
  pages := h.pages.trans h'.pages

/-- What it takes to fill the entry of a page below its table, in any state a table was
found in. -/
structure Fillable (gap : Prop) (w : Mmu) (slot : EntryIndex) (table : Frame) : Prop where
  pool : w.machine.pool.Sound
  installed : w.machine.ram.installed table
  counted : w.space.occupancy.get slot < 65535 ∨ gap

theorem assign_fills {ensured : Frame → Mmu → Prop} {filled : Mmu → Prop} (hv : v.Framed)
    (pa : PhysicalAddress) (va : VirtualAddress) (flags : EntryBits)
    (hensure : (ensureTable va.directoryIndex flags.userAccess).Meets gap v ensured fun e w =>
      e = .outOfFrames ∧ w = v ∧ v.table? va.directoryIndex.val = none ∧ ∀ f, ¬ v.available f)
    (hready : ∀ table w, ensured table w → Fillable gap w va.directoryIndex table)
    (hfilled : va.pageNumber ≠ 0 → (v.leaf va.pageNumber).isPresent = false → ∀ table w,
      ensured table w →
      filled ((w.withReserved flags pa.frame).withMapped table va (.ofFrame pa.frame flags))) :
    (assign pa va flags).Meets gap v (fun _ w => filled w)
      fun e w => w = v ∧ AssignRefused v va e := by
  unfold assign
  dsimp only
  split
  · next h => exact Call.throw_bind_meets ⟨rfl, .nullPage h⟩
  next hnull =>
  have hentry : (entry va).Gives v (v.leaf va.pageNumber) v := Op.inspect_gives (hv.entry_eq va)
  refine hentry.lift_bind ?_
  split
  · next h => exact Call.throw_bind_meets ⟨rfl, .alreadyMapped hnull h⟩
  next habsent =>
  refine Call.Meets.bind (m := ensured) (hensure.mono (fun _ _ => id) ?_) ?_
  · rintro e w ⟨rfl, rfl, ht, ha⟩
    rw [va.directoryIndex_val] at ht
    exact ⟨rfl, .outOfFrames hnull (Bool.eq_false_iff.mpr habsent) ht ha⟩
  intro table w he
  obtain ⟨hpool, hi, hcount⟩ := hready table w he
  have hdone := hfilled hnull (Bool.eq_false_iff.mpr habsent) table w he
  obtain ⟨hspace, hram, -⟩ := view_withReserved w flags pa.frame
  have hi' : (w.withReserved flags pa.frame).machine.ram.installed table := by rwa [hram]
  have hcount' : (w.withReserved flags pa.frame).space.occupancy.get va.directoryIndex < 65535 ∨
    gap := by rwa [hspace]
  split
  · next hb =>
    rw [withReserved, if_pos hb] at hi' hcount' hdone
    exact fillEntry_meets hi' hcount' (by rintro ⟨⟩) hdone
  · next hb =>
    rw [withReserved, if_neg hb] at hi' hcount' hdone
    refine (reserveFrame_gives w pa.frame).lift_bind ?_
    rw [(FramePool.reserve_sound hpool pa.frame).1]
    exact fillEntry_meets hi' hcount' (by rintro ⟨⟩) hdone

theorem Ensured.fillable {slot : EntryIndex} {table : Frame} {user : Bool}
    (h : Ensured v w slot.val table user) : Fillable gap w slot table where
  pool := h.sound.pool
  installed := h.sound.table_installed ((h.tables _).trans (if_pos rfl))
  counted := by
    have hle := presentBelow_card_le w slot.val
    rw [h.sound.occupancy_get]
    exact .inl (by omega)

theorem assign_meets (hv : v.Sound) (hr : ∀ f, v.available f → v.machine.ram.installed f ∨ gap)
    (pa : PhysicalAddress) (va : VirtualAddress) (flags : EntryBits)
    (hf : flags.borrowed = false → ¬ v.Covers pa.frame) :
    (assign pa va flags).Meets gap v
      (fun _ w => Assigned v w va.pageNumber (.ofFrame pa.frame flags))
      fun e w => w = v ∧ AssignRefused v va e := by
  refine assign_fills hv.framed pa va flags (ensureTable_meets hv hr _ _) (fun _ _ => Ensured.fillable)
    fun hnull habsent table w he => ?_
  have hloose : flags.borrowed = false → ¬ w.Covers pa.frame := by
    intro hb
    rw [he.step.covers]
    simpa using hf hb
  have hu := he.withReserved hloose
  have ht : (w.withReserved flags pa.frame).table? va.directoryIndex.val = some table := by
    rw [hu.tables, if_pos rfl]
  have ha : ((w.withReserved flags pa.frame).leaf va.pageNumber).isPresent = false := by
    rwa [hu.leaf]
  have hul : flags.borrowed = false → ¬ (w.withReserved flags pa.frame).Covers pa.frame := by
    intro hb
    rw [hu.step.covers, ← he.step.covers]
    exact hloose hb
  have hassigned := hu.sound.assigned (e := .ofFrame pa.frame flags) ht hnull ha rfl hul hu.allows
  rw [va.directoryIndex_val] at hu
  exact Ensured.assigned hu hassigned

end Mmu
end PagedKernel
