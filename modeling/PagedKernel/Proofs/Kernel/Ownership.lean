import PagedKernel.Proofs.Kernel.Run

/-! Who has which frame, all along a run. The frames the boot map made available are
divided: each is kept by the pool, by the kernel space for its directory or one of its
tables, or by one process for its directory, one of its tables or one of its pages. -/

namespace PagedKernel

namespace AddressSpace

def Links (s : AddressSpace) (ram : Ram) (slot : EntryIndex) (f : Frame) : Prop :=
  ∃ d, ram.directory s.directory = .ok d ∧ (d.get slot).table? = some f

/-- The space maps a page to a frame that it owns. -/
def Owns (s : AddressSpace) (ram : Ram) (page : Page) (f : Frame) : Prop :=
  ∃ e, s.entry ram page.base = .ok e ∧ e.isPresent = true ∧ e.isBorrowed = false ∧ e.frame = f

end AddressSpace

namespace Mmu

variable {v : Mmu} {f : Frame}

theorem links_iff (hv : v.Sound) (slot : EntryIndex) :
    v.space.Links v.machine.ram slot f ↔ v.held (.table slot.val) = some f := by
  have hlink : v.held (.table slot.val) =
      ((PageDirectory.mk (v.machine.ram.words v.space.directory)).get slot).table? := by
    rw [← link_val]
    rfl
  rw [AddressSpace.Links, Ram.directory_of_installed hv.directory_installed, hlink]
  simp

theorem owns_iff (hv : v.Sound) (page : Page) :
    v.space.Owns v.machine.ram page f ↔ v.held (.page page.index.val) = some f := by
  rw [AddressSpace.Owns, entry_eq hv, Page.base_pageNumber, held_page_eq_some]
  simp

end Mmu

namespace Kernel

inductive Custodian where
  | pool
  | kernelDirectory
  | kernelTable (slot : EntryIndex)
  | directory (pid : ProcessId)
  | table (pid : ProcessId) (slot : EntryIndex)
  | page (pid : ProcessId) (page : Page)

def Keeps (k : Kernel) : Custodian → Frame → Prop
  | .pool, f => k.machine.pool.isAvailable f = true
  | .kernelDirectory, f => k.space.directory = f
  | .kernelTable slot, f => k.space.Links k.machine.ram slot f
  | .directory pid, f => ∃ p, k.process? pid = some p ∧ p.space.directory = f
  | .table pid slot, f => ∃ p, k.process? pid = some p ∧ p.space.Links k.machine.ram slot f
  | .page pid page, f => ∃ p, k.process? pid = some p ∧ p.space.Owns k.machine.ram page f

namespace Custodian

/-- The space a custodian belongs to, if it is not the pool, and the role there. -/
def place : Custodian → Option (Option ProcessId × Mmu.Role)
  | pool => none
  | kernelDirectory => some (none, .directory)
  | kernelTable slot => some (none, .table slot.val)
  | directory pid => some (some pid, .directory)
  | table pid slot => some (some pid, .table slot.val)
  | page pid p => some (some pid, .page p.index.val)

theorem place_injective {c c' : Custodian} (h : c.place = c'.place) : c = c' := by
  cases c with
  | page pid p =>
    cases c' with
    | page pid' p' =>
      obtain ⟨i⟩ := p
      obtain ⟨j⟩ := p'
      simpa [place, Fin.val_inj] using h
    | _ => simp [place] at h
  | _ => cases c' <;> simp_all [place, Fin.val_inj]

end Custodian

variable {k : Kernel} {f : Frame} {managed : Frame → Prop} {gap : Prop} {c c' : Custodian}

def Plays (k : Kernel) (f : Frame) : Option (Option ProcessId × Mmu.Role) → Prop
  | none => k.machine.pool.isAvailable f = true
  | some (o, r) => ∃ s, spacesOf k.space k.users o = some s ∧ (Mmu.mk k.machine s).held r = some f

theorem exists_users {pid : ProcessId} {post : AddressSpace → Prop} :
    (∃ s, spacesOf k.space k.users (some pid) = some s ∧ post s) ↔
      ∃ p, k.process? pid = some p ∧ post p.space := by
  simp only [spacesOf, users, Option.map_eq_some_iff]
  constructor
  · rintro ⟨s, ⟨p, hp, rfl⟩, hs⟩
    exact ⟨p, hp, hs⟩
  · rintro ⟨p, hp, hs⟩
    exact ⟨p.space, ⟨p, hp, rfl⟩, hs⟩

theorem keeps_iff (h : Inv managed gap k) (c : Custodian) : k.Keeps c f ↔ k.Plays f c.place := by
  have hkernel : ∀ r, k.Plays f (some (none, r)) ↔ k.mmu.held r = some f := by
    intro r
    simp [Plays, spacesOf, mmu]
  have huser : ∀ {pid p}, k.process? pid = some p → (Mmu.mk k.machine p.space).Sound :=
    fun hp => h.steady.userSound (users_of_process? hp)
  cases c with
  | pool => exact .rfl
  | kernelDirectory =>
    rw [Custodian.place, hkernel]
    exact ⟨congrArg some, Option.some.inj⟩
  | kernelTable slot =>
    rw [Custodian.place, hkernel]
    exact Mmu.links_iff h.steady.sound slot
  | directory pid =>
    rw [Custodian.place, Plays, exists_users]
    exact exists_congr fun p => and_congr_right fun _ => ⟨congrArg some, Option.some.inj⟩
  | table pid slot =>
    rw [Custodian.place, Plays, exists_users]
    exact exists_congr fun p => and_congr_right fun hp => Mmu.links_iff (huser hp) slot
  | page pid page =>
    rw [Custodian.place, Plays, exists_users]
    exact exists_congr fun p => and_congr_right fun hp => Mmu.owns_iff (huser hp) page

theorem exists_place (h : Inv managed gap k) {o : Option ProcessId} {r : Mmu.Role}
    (hp : k.Plays f (some (o, r))) : ∃ c : Custodian, c.place = some (o, r) := by
  obtain ⟨s, hs, hf⟩ := hp
  have hslot : ∀ {slot}, r = .table slot → slot < entriesPerTable := by
    rintro slot rfl
    apply Classical.byContradiction
    intro hn
    simp only [entriesPerTable_value, Nat.not_lt] at hn
    rw [Mmu.held, Mmu.table?_eq_none_of_le hn] at hf
    cases hf
  cases o with
  | none =>
    cases r with
    | directory => exact ⟨.kernelDirectory, rfl⟩
    | table slot => exact ⟨.kernelTable ⟨slot, hslot rfl⟩, rfl⟩
    | page page =>
      obtain ⟨hpresent, hown, -⟩ := Mmu.held_page_eq_some.mp hf
      cases hs
      have hborrowed := h.steady.borrowed hpresent
      rw [mmu, hown] at hborrowed
      cases hborrowed
  | some pid =>
    cases r with
    | directory => exact ⟨.directory pid, rfl⟩
    | table slot => exact ⟨.table pid ⟨slot, hslot rfl⟩, rfl⟩
    | page page =>
      have hpage := Mmu.lt_of_present (Mmu.held_page_eq_some.mp hf).1
      exact ⟨.page pid ⟨⟨page, hpage⟩⟩, rfl⟩

theorem Inv.managed_iff (h : Inv managed gap k) : managed f ↔ ∃ c, k.Keeps c f := by
  rw [h.steady.custody.managed]
  constructor
  · rintro (ha | ⟨o, s, r, hs, hf⟩)
    · exact ⟨.pool, ha⟩
    · have hp : k.Plays f (some (o, r)) := ⟨s, hs, hf⟩
      obtain ⟨c, hc⟩ := exists_place h hp
      refine ⟨c, ?_⟩
      rw [keeps_iff h, hc]
      exact hp
  · rintro ⟨c, hc⟩
    rw [keeps_iff h] at hc
    revert hc
    cases c.place with
    | none => exact .inl
    | some place =>
      obtain ⟨o, r⟩ := place
      rintro ⟨s, hs, hf⟩
      exact .inr ⟨o, s, r, hs, hf⟩

theorem Inv.custodian_unique (h : Inv managed gap k) (hc : k.Keeps c f) (hc' : k.Keeps c' f) :
    c = c' := by
  have hcustody := h.steady.custody
  apply Custodian.place_injective
  rw [keeps_iff h] at hc hc'
  revert hc hc'
  cases c.place with
  | none =>
    cases c'.place with
    | none => exact fun _ _ => rfl
    | some place =>
      rintro ha ⟨s, hs, hf⟩
      exact absurd ha ((hcustody.sound hs).not_available hf)
  | some place =>
    obtain ⟨o, r⟩ := place
    cases c'.place with
    | none =>
      rintro ⟨s, hs, hf⟩ ha
      exact absurd ha ((hcustody.sound hs).not_available hf)
    | some place' =>
      obtain ⟨o', r'⟩ := place'
      rintro ⟨s, hs, hf⟩ ⟨s', hs', hf'⟩
      obtain rfl := hcustody.apart hs hs' hf hf'
      obtain rfl := Option.some.inj (hs.symm.trans hs')
      rw [(hcustody.sound hs).role_unique hf hf']

/-- The managed frames are divided among their custodians. -/
structure Divided (managed : Frame → Prop) (k : Kernel) : Prop where
  /-- Processes have different numbers, so custodians of different processes differ. -/
  pids : (k.processes.map (·.pid)).Nodup
  kept : ∀ f, managed f ↔ ∃ c, k.Keeps c f
  once : ∀ f c c', k.Keeps c f → k.Keeps c' f → c = c'
  /-- Without processes all but the frames of the kernel space are back in the pool. -/
  returned : k.processes = [] → ∀ f, managed f → ¬ k.Keeps .kernelDirectory f →
    (∀ slot, ¬ k.Keeps (.kernelTable slot) f) → k.machine.pool.isAvailable f = true

/-- No frame is lost, and none has two owners, all along a run. -/
theorem frames_divided {map : BootMap} {kernelEnd : PhysicalAddress} {m : Machine}
    {t : Traced Kernel} (h : Reachable map kernelEnd m t) :
    t.state.Divided (Managed map kernelEnd) := by
  have hinv := h.inv.1
  refine ⟨hinv.pids, fun _ => hinv.managed_iff, fun _ _ _ => hinv.custodian_unique, ?_⟩
  intro hnil f hf hdirectory htable
  have hnone : ∀ {pid p}, t.state.process? pid ≠ some p := by
    intro pid p hp
    have hmem := (mem_of_process? hp).1
    rw [hnil] at hmem
    cases hmem
  obtain ⟨c, hc⟩ := hinv.managed_iff.mp hf
  cases c with
  | pool => exact hc
  | kernelDirectory => exact absurd hc hdirectory
  | kernelTable slot => exact absurd hc (htable slot)
  | directory pid => exact absurd hc.choose_spec.1 hnone
  | table pid slot => exact absurd hc.choose_spec.1 hnone
  | page pid page => exact absurd hc.choose_spec.1 hnone

theorem frames_divided_reading :
    ∃ t, reading = some t ∧ t.state.Divided (Managed nineFrames (.ofBits 0)) := by
  obtain ⟨t, ht, hreading, -⟩ := reading_in_flight
  exact ⟨t, hreading, frames_divided ht⟩

end Kernel
end PagedKernel
