import Mathlib.Data.List.Nodup
import PagedKernel.Proofs.Space.Unmapping

/-! Creating a space and taking it down. Creation takes one frame; taking down
gives back the frame of every role, each once. -/

namespace PagedKernel

namespace Mmu

variable {v : Mmu} {f : Frame}

theorem table?_of_zero (hz : v.machine.ram.words v.space.directory = .zero) (slot : Nat) :
    v.table? slot = none := by
  simp only [table?, link, hz]
  split
  · rw [show PageDirectory.mk FrameWords.zero = .zero from rfl, PageDirectory.get_zero]
    rfl
  · rfl

theorem uniform_of_zero (hz : v.machine.ram.words v.space.directory = .zero) (user : Bool) :
    v.Uniform user := by
  intro slot
  rw [table?_of_zero hz, Option.elim_none, link, hz]
  split
  · exact PageDirectory.get_zero _
  · rfl

theorem leaf_of_no_tables (ht : ∀ slot, v.table? slot = none) (page : Nat) :
    v.leaf page = .zero :=
  leaf_of_unlinked (ht _)

theorem held_of_no_tables (ht : ∀ slot, v.table? slot = none) (role : Role) :
    v.held role = if role = .directory then some v.space.directory else none := by
  cases role with
  | directory => rfl
  | table slot => exact ht slot
  | page page =>
    simp only [held, leaf_of_no_tables ht]
    rfl

def roles : List Role :=
  (List.range 1024).flatMap (fun slot =>
    (List.range 1024).map (fun i => .page (1024 * slot + i)) ++ [.table slot]) ++ [.directory]

theorem mem_roles {role : Role} (h : v.held role = some f) : role ∈ roles := by
  simp only [roles, List.mem_append, List.mem_flatMap, List.mem_map, List.mem_range,
    List.mem_singleton]
  cases role with
  | directory => exact .inr rfl
  | table slot =>
    refine .inl ⟨slot, ?_, .inr rfl⟩
    apply Classical.byContradiction
    intro hn
    rw [held, table?_eq_none_of_le (by omega)] at h
    cases h
  | page page =>
    have hlt := lt_of_present (held_page_eq_some.mp h).1
    simp only [pageCount_value] at hlt
    exact .inl ⟨page / 1024, by omega, .inl ⟨page % 1024, by omega, by rw [Nat.div_add_mod]⟩⟩

theorem roles_nodup : roles.Nodup := by
  refine List.Nodup.append ?_ (List.nodup_singleton _) ?_
  · rw [List.nodup_flatMap]
    refine ⟨?_, ?_⟩
    · intro slot _
      refine List.Nodup.append ?_ (List.nodup_singleton _) ?_
      · refine List.nodup_range.map ?_
        intro i j h
        simp only [Role.page.injEq] at h
        omega
      · intro r h h'
        rw [List.mem_singleton.mp h'] at h
        simp at h
    · refine List.nodup_range.imp ?_
      intro slot other hne r h h'
      simp only [List.mem_append, List.mem_map, List.mem_range, List.mem_singleton] at h h'
      rcases h with ⟨i, hi, rfl⟩ | rfl <;> rcases h' with ⟨j, hj, h'⟩ | h'
      · simp only [Role.page.injEq] at h'
        omega
      · cases h'
      · cases h'
      · exact hne (Role.table.inj h')
  · intro r h h'
    rw [List.mem_singleton.mp h'] at h
    simp at h

def heldFrames (v : Mmu) : List Frame :=
  roles.filterMap v.held

theorem mem_heldFrames : f ∈ v.heldFrames ↔ ∃ role, v.held role = some f := by
  simp only [heldFrames, List.mem_filterMap]
  refine exists_congr fun role => ?_
  exact and_iff_right_of_imp mem_roles

theorem heldFrames_nodup (hv : v.Sound) : v.heldFrames.Nodup := by
  refine roles_nodup.filterMap ?_
  intro role role' f h h'
  exact hv.role_unique h h'

def framesBelow (v : Mmu) (slot : Nat) : List Frame :=
  (List.range 1024).filterMap fun i => v.held (.page (1024 * slot + i))

theorem heldFrames_eq (v : Mmu) :
    v.heldFrames = ((List.range 1024).flatMap fun slot =>
      v.framesBelow slot ++ (v.table? slot).toList) ++ [v.space.directory] := by
  have htable : ∀ slot, [Role.table slot].filterMap v.held = (v.table? slot).toList := by
    intro slot
    simp only [List.filterMap_cons, List.filterMap_nil, held]
    cases v.table? slot <;> rfl
  simp only [heldFrames, roles, List.filterMap_append, List.filterMap_flatMap, framesBelow,
    List.filterMap_map, htable]
  rfl

def ownedFrames (entries : List TableEntry) : List Frame :=
  (entries.filter fun e => !e.isBorrowed).map TableEntry.frame

theorem entries_eq {slot : Nat} {table : Frame} (ht : v.table? slot = some table) :
    (v.machine.ram.words table).toList.map TableEntry.ofRaw =
      (List.range 1024).map fun i => v.leaf (1024 * slot + i) := by
  have hlen : (v.machine.ram.words table).toList.length = 1024 := Vector.length_toList
  apply List.ext_getElem
  · rw [List.length_map, List.length_map, hlen, List.length_range]
  · intro i h _
    have hi : i < 1024 := by simpa only [List.length_map, hlen] using h
    have hs : (1024 * slot + i) / 1024 = slot := by omega
    have hm : (1024 * slot + i) % 1024 = i := by omega
    simp only [List.getElem_map, List.getElem_range, leaf_of_table (hs.symm ▸ ht), cell,
      PageTable.get, hm, Fin.getElem_fin, Vector.getElem_toList]

theorem links_eq (v : Mmu) :
    (PageDirectory.mk (v.machine.ram.words v.space.directory)).present.map (·.2) =
      (List.range 1024).filterMap v.table? := by
  have hrange : List.range 1024 = (List.finRange entriesPerTable).map Fin.val :=
    List.map_coe_finRange_eq_range.symm
  rw [PageDirectory.present, List.map_filterMap, hrange, List.filterMap_map]
  refine List.filterMap_congr fun slot _ => ?_
  rw [Function.comp_apply, table?, link_val, Option.map_map]
  exact Option.map_id'

theorem ownedFrames_present {slot : Nat} {table : Frame} (ht : v.table? slot = some table) :
    ownedFrames (PageTable.mk (v.machine.ram.words table)).present = v.framesBelow slot := by
  simp only [ownedFrames, PageTable.present, entries_eq ht, framesBelow, List.filter_map,
    List.filter_filter, List.map_map]
  rw [← List.filterMap_eq_map, List.filterMap_filter]
  refine List.filterMap_congr fun i _ => ?_
  simp only [held, Function.comp_apply, Bool.and_comm]

theorem framesBelow_unlinked {slot : Nat} (ht : v.table? slot = none) :
    v.framesBelow slot = [] := by
  rw [framesBelow, List.filterMap_eq_nil_iff]
  intro i hi
  have hlt : i < 1024 := List.mem_range.mp hi
  have hs : (1024 * slot + i) / 1024 = slot := by omega
  simp only [held, leaf_of_unlinked (hs.symm ▸ ht)]
  rfl

end Mmu

namespace Machine

variable {m m' m'' : Machine} {fs gs : List Frame} {gap : Prop}

structure Freed (m m' : Machine) (fs : List Frame) : Prop where
  ram : m'.ram = m.ram
  pool : m'.pool.Sound
  available : ∀ f, m'.pool.isAvailable f = true ↔ m.pool.isAvailable f = true ∨ f ∈ fs

theorem Freed.refl (hp : m.pool.Sound) : Freed m m [] where
  ram := rfl
  pool := hp
  available f := by simp

theorem Freed.trans (h : Freed m m' fs) (h' : Freed m' m'' gs) : Freed m m'' (fs ++ gs) where
  ram := h'.ram.trans h.ram
  pool := h'.pool
  available f := by rw [h'.available, h.available, List.mem_append, or_assoc]

def Taken (m : Machine) (fs : List Frame) : Prop :=
  fs.Nodup ∧ ∀ f ∈ fs, m.pool.isAvailable f = false

theorem Taken.left (h : Taken m (fs ++ gs)) : Taken m fs :=
  ⟨h.1.of_append_left, fun f hf => h.2 f (List.mem_append_left _ hf)⟩

theorem Taken.after (h : Taken m (fs ++ gs)) (hm : Freed m m' fs) : Taken m' gs := by
  refine ⟨h.1.of_append_right, ?_⟩
  intro f hf
  have hna : m.pool.isAvailable f = false := h.2 f (List.mem_append_right _ hf)
  have hnf : f ∉ fs := fun hin => List.disjoint_of_nodup_append h.1 hin hf
  rw [Bool.eq_false_iff, ne_eq, hm.available, hna]
  simp [hnf]

theorem freeFrame_freed (hp : m.pool.Sound) {f : Frame} (hf : Taken m [f]) :
    ∃ m', (freeFrame f).Gives m (.ok ()) m' ∧ Freed m m' [f] := by
  obtain ⟨hok, hs, hav⟩ := FramePool.free_of_taken hp (hf.2 f (by simp))
  refine ⟨⟨m.ram, (m.pool.free f).2⟩, hok ▸ freeFrame_gives m f, rfl, hs, ?_⟩
  intro g
  rw [List.mem_singleton]
  exact hav g

end Machine

namespace AddressSpace

open Machine

variable {m : Machine} {gap : Prop}

theorem releaseEntries_meets (hp : m.pool.Sound) {owned : Nat} {entries : List TableEntry}
    (ht : Taken m (Mmu.ownedFrames entries)) (hn : owned + entries.length ≤ maxLength) :
    (releaseEntries owned entries).Meets gap m fun total m' =>
      total ≤ owned + entries.length ∧ Freed m m' (Mmu.ownedFrames entries) := by
  induction entries generalizing m owned with
  | nil => exact Op.pure_meets ⟨Nat.le_refl _, .refl hp⟩
  | cons e rest ih =>
    rw [List.length_cons] at hn ⊢
    unfold releaseEntries
    cases hb : e.isBorrowed with
    | true =>
      have hsame : Mmu.ownedFrames (e :: rest) = Mmu.ownedFrames rest := by
        simp [Mmu.ownedFrames, hb]
      rw [hsame] at ht ⊢
      refine (ih hp ht (by omega)).mono ?_
      rintro total m' ⟨hle, h⟩
      exact ⟨by omega, h⟩
    | false =>
      have hcons : Mmu.ownedFrames (e :: rest) = [e.frame] ++ Mmu.ownedFrames rest := by
        simp [Mmu.ownedFrames, hb]
      rw [hcons] at ht ⊢
      obtain ⟨m', hgives, hfreed⟩ := freeFrame_freed hp ht.left
      refine hgives.bind ((Op.ofExcept_gives (lengthSum_eq_ok (by omega))).bind ?_)
      refine (ih hfreed.pool (ht.after hfreed) (by omega)).mono ?_
      rintro total m'' ⟨hle, h⟩
      exact ⟨by omega, hfreed.trans h⟩

theorem releaseTables_meets {v : Mmu} (hv : v.Sound) (hp : m.pool.Sound)
    (hm : m.ram = v.machine.ram) {owned : Nat} {slots : List Nat}
    (hn : owned + 1024 * slots.length ≤ maxLength)
    (ht : Taken m (slots.flatMap fun s => v.framesBelow s ++ (v.table? s).toList)) :
    (releaseTables owned (slots.filterMap v.table?)).Meets gap m fun _ m' =>
      Freed m m' (slots.flatMap fun s => v.framesBelow s ++ (v.table? s).toList) := by
  induction slots generalizing m owned with
  | nil => exact Op.pure_meets (.refl hp)
  | cons s rest ih =>
    simp only [List.flatMap_cons] at ht ⊢
    rw [List.length_cons] at hn
    cases hs : v.table? s with
    | none =>
      rw [List.filterMap_cons_none hs]
      simp only [hs, Mmu.framesBelow_unlinked hs, Option.toList_none, List.append_nil,
        List.nil_append] at ht ⊢
      exact ih hp hm (by omega) ht
    | some table =>
      rw [List.filterMap_cons_some hs]
      simp only [hs, Option.toList_some] at ht ⊢
      have hentries : (m.ram.table table >>= fun t => pure t.present) =
          .ok (PageTable.mk (v.machine.ram.words table)).present := by
        rw [hm, Ram.table_of_installed (hv.table_installed hs)]
        rfl
      refine Op.Gives.bind (Op.inspect_gives (f := fun m : Machine => do
        return (← m.ram.table table).present) hentries) ?_
      have hbelow := ht.left.left
      rw [← Mmu.ownedFrames_present hs] at hbelow
      have hlength := PageTable.length_present_le ⟨v.machine.ram.words table⟩
      simp only [entriesPerTable_value] at hlength
      refine (releaseEntries_meets hp hbelow (by omega)).bind ?_
      rintro total m₁ ⟨htotal, h₁⟩
      rw [Mmu.ownedFrames_present hs] at h₁
      obtain ⟨m₂, hgives, h₂⟩ := freeFrame_freed h₁.pool (ht.left.after h₁)
      have h₁₂ := h₁.trans h₂
      refine hgives.bind ((ih h₂.pool (h₁₂.ram.trans hm) (by omega) (ht.after h₁₂)).mono ?_)
      intro _ m₃ h₃
      exact h₁₂.trans h₃

theorem release_meets {s : AddressSpace} (hv : (Mmu.mk m s).Sound) :
    s.release.Meets gap m fun _ m' => Freed m m' (Mmu.mk m s).heldFrames := by
  have ht : Taken m (Mmu.mk m s).heldFrames := by
    refine ⟨Mmu.heldFrames_nodup hv, ?_⟩
    intro f hf
    obtain ⟨role, hr⟩ := Mmu.mem_heldFrames.mp hf
    exact Bool.eq_false_iff.mpr (hv.not_available hr)
  rw [Mmu.heldFrames_eq] at ht ⊢
  have htables : (m.ram.directory s.directory >>= fun d => pure (d.present.map (·.2))) =
      .ok ((List.range 1024).filterMap (Mmu.mk m s).table?) := by
    rw [Ram.directory_of_installed hv.directory_installed, ← Mmu.links_eq]
    rfl
  have hn : 0 + 1024 * (List.range 1024).length ≤ maxLength := by
    rw [List.length_range]
    decide
  generalize List.range 1024 = slots at ht htables hn ⊢
  have hlinked : Op.Gives (Op.inspect fun m : Machine => do
      return (← m.ram.directory s.directory).present.map (·.2)) m
      (slots.filterMap (Mmu.mk m s).table?) m := by
    apply Op.inspect_gives
    exact htables
  unfold release
  refine hlinked.bind ?_
  refine (releaseTables_meets hv hv.pool rfl hn ht.left).bind ?_
  intro owned m₁ h₁
  obtain ⟨m₂, hgives, h₂⟩ := freeFrame_freed h₁.pool (ht.after h₁)
  refine hgives.bind ((Op.record_gives (by rintro ⟨⟩)).meets ?_)
  exact h₁.trans h₂

structure Created (m m' : Machine) (s : AddressSpace) : Prop where
  sound : (Mmu.mk m' s).Sound
  tables : ∀ slot, (Mmu.mk m' s).table? slot = none
  taken : m.pool.isAvailable s.directory = true
  available : ∀ f, m'.pool.isAvailable f = true ↔ m.pool.isAvailable f = true ∧ f ≠ s.directory
  installed : ∀ f, m'.ram.installed f ↔ m.ram.installed f
  kept : ∀ f, f ≠ s.directory → m'.ram.words f = m.ram.words f
  uniform : ∀ user, (Mmu.mk m' s).Uniform user

theorem isAvailable_fresh (directory : Frame) (p : Nat) :
    (fresh directory).isAvailable p = (decide (p < pageCount) && decide (p ≠ 0)) := by
  by_cases hp : p < pageCount
  · rw [isAvailable_of_lt _ hp, fresh, Bitmap.bit_write, Bitmap.bit_filled, decide_eq_true hp]
    by_cases h0 : p = 0 <;> simp [h0]
  · rw [isAvailable_of_le _ (Nat.le_of_not_lt hp), decide_eq_false hp, Bool.false_and]

theorem sound_of_zero {s : AddressSpace} (hp : m.pool.Sound) (hi : m.ram.installed s.directory)
    (hz : m.ram.words s.directory = .zero) (ha : m.pool.isAvailable s.directory = false)
    (ho : s.occupancy = .replicate entriesPerTable 0) (hn : s.isAvailable 0 = false) :
    (Mmu.mk m s).Sound := by
  have ht := Mmu.table?_of_zero (v := ⟨m, s⟩) hz
  have hl := Mmu.leaf_of_no_tables ht
  have hrole : ∀ {r f}, (Mmu.mk m s).held r = some f → r = .directory ∧ f = s.directory := by
    intro r f h
    rw [Mmu.held_of_no_tables ht] at h
    split at h
    · next hr => exact ⟨hr, (Option.some.inj h).symm⟩
    · cases h
  refine ⟨hp, hi, ?_, ?_, ?_, fun _ => hl _, fun _ => by rw [hl]; rfl, hn, by rw [hl]; rfl⟩
  · intro slot f h
    rw [ht] at h
    cases h
  · intro c d f h h'
    cases c with
    | none =>
      cases d with
      | none => rfl
      | some r =>
        rw [(hrole h').2] at h
        exact absurd h (Bool.eq_false_iff.mp ha)
    | some r =>
      cases d with
      | none =>
        rw [(hrole h).2] at h'
        exact absurd h' (Bool.eq_false_iff.mp ha)
      | some q => rw [(hrole h).1, (hrole h').1]
  · intro slot h
    have hempty : (Mmu.mk m s).presentBelow slot = ∅ := by
      apply Finset.eq_empty_of_forall_notMem
      intro i hi
      have hp := (Mmu.mem_presentBelow_iff.mp hi).2
      rw [hl] at hp
      cases hp
    rw [hempty, Finset.card_empty]
    show s.occupancy[slot] = 0
    simp only [ho, Vector.getElem_replicate]

theorem create_meets (hp : m.pool.Sound)
    (hr : ∀ f, m.pool.isAvailable f = true → m.ram.installed f ∨ gap) :
    create.Meets gap m (fun s m' => Created m m' s ∧ s = fresh s.directory) fun e m' =>
      e = .outOfFrames ∧ m' = m ∧ ∀ f, m.pool.isAvailable f = false := by
  unfold create
  refine (takeFrame_gives m).lift_bind ?_
  cases ha : m.pool.alloc.1 with
  | none =>
    obtain ⟨hsame, hnone⟩ := FramePool.alloc_eq_none ha
    exact Call.throw_meets ⟨rfl, by rw [hsame], hnone hp⟩
  | some f =>
    obtain ⟨hf, hav, -⟩ := FramePool.alloc_eq_some ha
    have hi : (Machine.mk m.ram m.pool.alloc.2).ram.installed f ∨ gap := hr f hf
    refine Call.lift_bind_meets (zeroFrame_meets hi) ?_
    rintro - m' ⟨hi, rfl⟩
    refine Call.record_bind_meets (by rintro ⟨⟩) (Call.pure_meets ⟨?_, rfl⟩)
    have hzero : (m.ram.change f fun _ => FrameWords.zero).words f = .zero :=
      (Ram.words_change hi _ f).trans (if_pos rfl)
    have hna : m.pool.alloc.2.isAvailable f = false := by
      rw [Bool.eq_false_iff, ne_eq, hav]
      exact fun h => h.2 rfl
    refine ⟨sound_of_zero (FramePool.alloc_sound hp) ((Ram.installed_change _).mpr hi) hzero hna rfl
      (by rw [isAvailable_fresh]; rfl), Mmu.table?_of_zero hzero, hf, hav,
      fun _ => Ram.installed_change _, ?_, Mmu.uniform_of_zero hzero⟩
    exact fun g hg => (Ram.words_change hi _ g).trans (if_neg hg)

theorem isAvailable_reserveBelow (s : AddressSpace) {stop : Nat} (h : stop ≤ pageCount) (p : Nat) :
    (s.reserveBelow stop h).isAvailable p = (decide (stop ≤ p) && s.isAvailable p) := by
  by_cases hp : p < pageCount
  · rw [isAvailable_of_lt _ hp, isAvailable_of_lt _ hp]
    refine (Bitmap.bit_fillFrom _ false h hp).trans ?_
    by_cases hs : stop ≤ p
    · simp [hs, Nat.not_lt.mpr hs]
    · simp [hs, Nat.lt_of_not_le hs]
  · rw [isAvailable_of_le _ (Nat.le_of_not_lt hp), isAvailable_of_le _ (Nat.le_of_not_lt hp),
      Bool.and_false]

theorem Created.reserveBelow {s : AddressSpace} (h : Created m m' s) {stop : Nat}
    (hs : stop ≤ pageCount) : Created m m' (s.reserveBelow stop hs) where
  sound := { h.sound with
    offered := fun ho => by
      rw [isAvailable_reserveBelow, Bool.and_eq_true] at ho
      exact h.sound.offered ho.2
    null := by
      refine ⟨?_, h.sound.null.2⟩
      rw [isAvailable_reserveBelow, h.sound.null.1, Bool.and_false] }
  tables := h.tables
  taken := h.taken
  available := h.available
  installed := h.installed
  kept := h.kept
  uniform := h.uniform

end AddressSpace
end PagedKernel
