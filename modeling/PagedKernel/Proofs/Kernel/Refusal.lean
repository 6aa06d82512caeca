import PagedKernel.Proofs.Kernel.Faultless
import PagedKernel.Proofs.Kernel.Isolation
import PagedKernel.Proofs.Kernel.Links

/-! Calls that are refused change nothing. They may have taken frames and linked tables by
then; all of it is undone, so that no entry, no mark, no queued read and no process differs.
Only frames that are available may differ in content, and the pool in where it looks next. -/

namespace PagedKernel

namespace AddressSpace

/-- No entry of the directory or of a table differs. -/
structure SameEntries (s : AddressSpace) (ram ram' : Ram) : Prop where
  directory : ram'.directory s.directory = ram.directory s.directory
  entry : ∀ va, s.entry ram' va = s.entry ram va

variable {m m' : Machine} {s : AddressSpace}

theorem SameEntries.refl (s : AddressSpace) (ram : Ram) : s.SameEntries ram ram :=
  ⟨rfl, fun _ => rfl⟩

theorem sameEntries_of_untouched (hs : (Mmu.mk m s).Sound) (hs' : (Mmu.mk m' s).Sound)
    (h : Untouched m m' s) : s.SameEntries m.ram m'.ram where
  directory := by
    have hd := Ram.directory_of_installed hs.directory_installed
    have hd' := Ram.directory_of_installed hs'.directory_installed
    rw [h .directory _ rfl] at hd'
    exact hd'.trans hd.symm
  entry va := by
    have he := Mmu.entry_eq hs va
    have he' := Mmu.entry_eq hs' va
    rw [h.view.2.2.1] at he'
    exact he'.trans he.symm

end AddressSpace

namespace Kernel

variable {k k' : Kernel} {o : Option ProcessId} {s : AddressSpace} {m' : Machine}
  {managed : Frame → Prop} {gap : Prop}

structure Unchanged (k k' : Kernel) : Prop where
  /-- The same frames are available. -/
  frames : k'.machine.pool.frames = k.machine.pool.frames
  limit : k'.machine.pool.limit = k.machine.pool.limit
  installed : ∀ f, k'.machine.ram.installed f ↔ k.machine.ram.installed f
  words : ∀ f, k.machine.pool.isAvailable f = false →
    k'.machine.ram.words f = k.machine.ram.words f
  entries : ∀ o s, k.space? o = some s → s.SameEntries k.machine.ram k'.machine.ram
  space : k'.space = k.space
  /-- Their spaces, what they wait for and what they read last included. -/
  processes : k'.processes = k.processes
  nextPid : k'.nextPid = k.nextPid
  queue : k'.queue = k.queue
  slots : k'.slots = k.slots

theorem Unchanged.refl (k : Kernel) : Unchanged k k :=
  ⟨rfl, rfl, fun _ => .rfl, fun _ _ => rfl, fun _ s _ => .refl s _, rfl, rfl, rfl, rfl, rfl⟩

theorem Inv.sound_of_space? (h : Inv managed gap k) (hs : k.space? o = some s) :
    (Mmu.mk k.machine s).Sound := by
  cases o with
  | none =>
    obtain rfl := Option.some.inj hs
    exact h.steady.sound
  | some pid => exact h.steady.userSound hs

theorem Inv.unchanged {user : Bool} (h : Inv managed gap k)
    (h' : Inv managed gap { k with machine := m' }) (hs : k.space? o = some s)
    (hu : (Mmu.mk k.machine s).Uniform user)
    (hr : Mmu.Restored user ⟨k.machine, s⟩ ⟨m', s⟩) : Unchanged k { k with machine := m' } := by
  have hv := h.sound_of_space? hs
  have havailable : ∀ f, m'.pool.isAvailable f = k.machine.pool.isAvailable f :=
    fun f => Bool.eq_iff_iff.mpr (hr.available hv f)
  have hwords : ∀ f, k.machine.pool.isAvailable f = false →
      m'.ram.words f = k.machine.ram.words f :=
    fun f hf => hr.words hu (Bool.eq_false_iff.mp hf)
  refine ⟨?_, ?_, hr.step.installed, hwords, ?_, rfl, rfl, rfl, rfl, rfl⟩
  · refine Bitmap.eq_of_bits (by rw [pageCount_value]) fun i hi => ?_
    exact havailable ⟨i, hi⟩
  · rw [hr.sound.pool.limit, hv.pool.limit]
  · intro o' s' hs'
    have hold := h.sound_of_space? hs'
    refine AddressSpace.sameEntries_of_untouched hold (h'.sound_of_space? (o := o') hs') ?_
    exact fun r f hf => hwords f (Bool.eq_false_iff.mpr (hold.not_available hf))

theorem withUser_machine {pid : ProcessId} {p : Process} (hn : (k.processes.map (·.pid)).Nodup)
    (hp : k.process? pid = some p) :
    k.withUser p ⟨m', p.space⟩ = { k with machine := m' } := by
  have hself : (k.withUser p ⟨k.machine, p.space⟩).processes = k.processes := by
    rw [withUser_self hn hp]
  exact congrArg (fun ps => { k with machine := m', processes := ps }) hself

theorem Outcome.unchanged {op : Operation} {answered : Bool} (h : Inv managed gap k)
    (hl : LinksAlike k) (ho : Outcome managed gap k op answered k') (hrefused : answered = false)
    (hop : ∀ base size, op ≠ .mapDevice base size) : Unchanged k k' := by
  have hkeeps := (ho.keeps h).1
  induction ho with
  | refused op => exact .refl k
  | @deviceMapped base size => exact absurd rfl (hop base size)
  | @mapUndone pid _ _ _ p w hp hw =>
    have hu := users_of_process? hp
    obtain ⟨m', s⟩ := w
    obtain rfl : s = p.space := hw.space (h.steady.userSound hu)
    rw [withUser_machine h.pids hp] at hkeeps ⊢
    exact h.unchanged (o := some pid) hkeeps hu (hl.users hu) hw
  | @lendUndone _ _ _ _ w hw =>
    obtain ⟨m', s⟩ := w
    obtain rfl : s = k.space := hw.space h.steady.sound
    exact h.unchanged (o := none) hkeeps rfl hl.kernel hw
  | @called _ _ _ _ _ call _ _ _ _ _ _ _ ih =>
    refine ih hrefused ?_ hkeeps
    cases call <;> exact nofun
  | spawned | mapped | unmapped | queued | ended | ticked => cases hrefused

theorem Reachable.unchanged {map : BootMap} {kernelEnd : PhysicalAddress} {m : Machine}
    {t u : Traced Kernel} (ht : Reachable map kernelEnd m t) (op : Operation)
    (hop : ∀ base size, op ≠ .mapDevice base size) (h : op.attempt t = .ok false u) :
    Unchanged t.state u.state :=
  (ht.attempt h).unchanged ht.inv.1 ht.linksAlike rfl hop

/-- Along a run, a call that is refused, or a numbered one that comes back with the error
word, leaves everything as it was: the available frames, the entries, marks and contents of
every space, the processes, the queued reads and the next process number. -/
theorem refusals_change_nothing {map : BootMap} {kernelEnd : PhysicalAddress} {m : Machine}
    {t u : Traced Kernel} (ht : Reachable map kernelEnd m t) :
    (∀ e, spawn.run t = .ok (.error e) u → Unchanged t.state u.state) ∧
    (∀ pid hint length writable e,
      (Kernel.map pid hint length writable).run t = .ok (.error e) u →
        Unchanged t.state u.state) ∧
    (∀ pid va length e, (unmap pid va length).run t = .ok (.error e) u →
      Unchanged t.state u.state) ∧
    (∀ pid fd buffer count e, (read pid fd buffer count).run t = .ok (.error e) u →
      Unchanged t.state u.state) ∧
    (∀ pid e, (exit pid).run t = .ok (.error e) u → Unchanged t.state u.state) ∧
    (∀ pid number arg0 arg1 arg2,
      syscall pid number arg0 arg1 arg2 t = .ok syscallError u → Unchanged t.state u.state) := by
  refine ⟨?_, ?_, ?_, ?_, ?_, ?_⟩
  · intro e h
    exact ht.unchanged .spawn nofun (isOk_of_run h)
  · intro pid hint length writable e h
    exact ht.unchanged (.map pid hint length writable) nofun (isOk_of_run h)
  · intro pid va length e h
    exact ht.unchanged (.unmap pid va length) nofun (isOk_of_run h)
  · intro pid fd buffer count e h
    exact ht.unchanged (.read pid fd buffer count) nofun (isOk_of_run h)
  · intro pid e h
    exact ht.unchanged (.exit pid) nofun (isOk_of_run h)
  · intro pid number arg0 arg1 arg2 h
    refine ht.unchanged (.syscall pid number arg0 arg1 arg2) nofun ?_
    rw [Operation.attempt, Op.bind_eq_ok]
    exact ⟨syscallError, u, h, rfl⟩

theorem Reachable.available_le {t : Traced Kernel}
    (ht : Reachable nineFrames (.ofBits 0) ⟨.arena 10, .empty⟩ t) :
    t.state.machine.pool.available ≤ 10 := by
  refine FramePool.available_le_of_lt fun f hf => ?_
  exact backed_nineFrames.installed ((ht.inv.1.steady.custody.managed f).mpr (.inl hf))

theorem Reachable.map_elevenPages {t : Traced Kernel} {pid : ProcessId} {p : Process}
    {base : VirtualAddress} (ht : Reachable nineFrames (.ofBits 0) ⟨.arena 10, .empty⟩ t)
    (hint : VirtualAddress) (writable : Bool) (hp : t.state.process? pid = some p)
    (hbase : p.space.nextRun (hint.max MemoryLayout.userBaseAddress).pageNumber 11 = some base) :
    ∃ u, (Kernel.map pid hint 45056 writable).run t =
      .ok (.error (.mapping .outOfMemory)) u := by
  have hsteady := ht.inv.1.steady
  have hu := users_of_process? hp
  have hnever : ¬ Gap nineFrames (.ofBits 0) ⟨.arena 10, .empty⟩ := backed_nineFrames.no_gap
  obtain ⟨answer, u, hrun, hpost⟩ := Op.Meets.exists_answer
    ((map_meets ht.inv.1 pid hint 45056 writable).widen hnever) t.events
  cases answer with
  | ok first =>
    obtain ⟨q, w, hq, -, hw⟩ := hpost
    obtain rfl : p = q := Option.some.inj (hp.symm.trans hq)
    have htaken : t.state.machine.pool.available = w.machine.pool.available +
        (11 + _) := hw.grown.available_eq (hsteady.userSound hu) (hsteady.userTrimmed hu)
    have hfew := ht.available_le
    omega
  | error e =>
    obtain ⟨-, hnone⟩ | ⟨q, w, cause, hq, -, -, rfl, hcause⟩ := hpost
    · cases hnone.symm.trans hp
    obtain rfl : p = q := Option.some.inj (hp.symm.trans hq)
    cases hcause with
    | invalidRange h => cases h
    | outOfVirtualSpace _ hnone =>
      obtain ⟨hstart, hoffers⟩ := (Mmu.nextRun_isLeast (by decide) hbase).1
      exact absurd hoffers (hnone _ hstart)
    | outOfMemory => exact ⟨u, hrun⟩

/-- A page lent to a read in flight stays mapped. A request for more pages than there are frames
runs out of them, and nothing is left of the pages that were mapped until then. -/
theorem refusals_change_nothing_reading : ∃ t, reading = some t ∧
    (∃ e u, (unmap ⟨1⟩ (.ofBits 268435456) 4096).run t = .ok (.error e) u ∧
      Unchanged t.state u.state) ∧
    (∃ base u, (Kernel.map ⟨2⟩ (.ofBits 0) 4096 true).run t = .ok (.ok base) u) ∧
    ∃ u, (Kernel.map ⟨2⟩ (.ofBits 0) 45056 true).run t =
      .ok (.error (.mapping .outOfMemory)) u ∧ Unchanged t.state u.state := by
  have hrun : (reading.any fun t =>
      (unmap ⟨1⟩ (.ofBits 268435456) 4096).isRefused t &&
      (Kernel.map ⟨2⟩ (.ofBits 0) 4096 true).answeredWith (fun _ => true) t &&
      (t.state.process? ⟨2⟩).any fun p => (p.space.nextRun 65536 11).isSome) = true := by
    simp only [reading, run, List.foldlM_cons, List.foldlM_nil, after, Operation.perform, spawn,
      Process.create_eq]
    decide +kernel
  obtain ⟨t, ht, h⟩ := (Option.any_eq_true _ _).mp hrun
  have hreached := reachable_iff.mpr ⟨_, ht⟩
  simp only [Bool.and_eq_true] at h
  obtain ⟨⟨hlent, hone⟩, hplace⟩ := h
  obtain ⟨e, u, hunmap⟩ := Call.exists_of_isRefused hlent
  obtain ⟨base, v, hmap, -⟩ := Call.exists_of_answeredWith hone
  obtain ⟨p, hp, hsome⟩ := (Option.any_eq_true _ _).mp hplace
  obtain ⟨first, hfirst⟩ := Option.isSome_iff_exists.mp hsome
  obtain ⟨w, hscarce⟩ := hreached.map_elevenPages (.ofBits 0) true hp hfirst
  refine ⟨t, ht, ⟨e, u, hunmap, ?_⟩, ⟨base, v, hmap⟩, w, hscarce, ?_⟩
  · exact (refusals_change_nothing hreached).2.2.1 _ _ _ e hunmap
  · exact (refusals_change_nothing hreached).2.1 _ _ _ _ _ hscarce

end Kernel
end PagedKernel
