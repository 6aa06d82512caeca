import PagedKernel.Proofs.Kernel.Run

/-! The kernel does not fault. Where memory holds every frame that the boot map makes
available, booting comes to an answer as long as the frames it leaves out can be counted,
and so does every operation of a run; only the process numbers can be used up. -/

namespace PagedKernel.Kernel

open FramePool (Seeding)

variable {map : BootMap} {kernelEnd : PhysicalAddress} {m : Machine} {k : Kernel}
  {managed : Frame → Prop} {t t' : Traced Kernel} {op : Operation}

/-- Memory that holds every frame the boot map makes available: all memory behind the
identity window does, and an arena that is large enough. -/
inductive Backed (map : BootMap) (kernelEnd : PhysicalAddress) : Ram → Prop where
  | identityWindow {frames : Array FrameWords} :
    frames.size = MemoryLayout.kernelWindowPages → Backed map kernelEnd ⟨frames, .identityWindow⟩
  | arena {frames : Array FrameWords} :
    (∀ f, Managed map kernelEnd f → f.index.val < frames.size) →
      Backed map kernelEnd ⟨frames, .arena⟩

theorem Backed.installed {ram : Ram} (h : Backed map kernelEnd ram) {f : Frame}
    (hf : Managed map kernelEnd f) : ram.installed f := by
  cases h with
  | identityWindow hsize =>
    rw [Ram.installed, hsize]
    exact lt_of_managed hf
  | arena hlarge => exact hlarge f hf

theorem Backed.no_gap (h : Backed map kernelEnd m.ram) : ¬ Gap map kernelEnd m :=
  fun ⟨_, hf, hmissing⟩ => hmissing (h.installed hf)

theorem backed_nineFrames : Backed nineFrames (.ofBits 0) (.arena 10) := by
  refine .arena fun f hf => ?_
  obtain ⟨r, hr, -, hstop⟩ := (Seeding.isAvailable_ofBootMap nineFrames (.ofBits 0) f).mp hf
  obtain rfl : r = ⟨4096, 36864, .usable⟩ := List.mem_singleton.mp (List.mem_of_mem_filter hr)
  exact Nat.lt_of_lt_of_le hstop (by decide)

theorem Inv.performs {gap : Prop} (h : Inv managed gap k) (hgap : ¬ gap) (op : Operation)
    (hpids : op.isSpawn = true → k.PidsLeft) (events : Array Event) :
    ∃ answered t', op.attempt ⟨k, events⟩ = .ok answered t' := by
  have hnever : ¬ (gap ∨ op.isSpawn = true ∧ ¬ k.PidsLeft) := by
    rintro (hg | ⟨hspawn, hnone⟩)
    · exact hgap hg
    · exact hnone (hpids hspawn)
  obtain ⟨answered, t', hrun, -⟩ := ((attempt_outcome h op).widen hnever).exists_answer events
  exact ⟨answered, t', hrun⟩

/-- How many processes are spawned by operations, up to the first that faults. -/
def spawns (t : Traced Kernel) : List Operation → Nat
  | [] => 0
  | op :: ops =>
    match op.attempt t with
    | .ok answered t' => (if op.isSpawn && answered then 1 else 0) + spawns t' ops
    | .error _ _ => 0

theorem spawned_le_asked (op : Operation) (answered : Bool) :
    (if op.isSpawn && answered then 1 else 0) ≤ if op.isSpawn then 1 else 0 := by
  cases op.isSpawn <;> cases answered <;> decide

theorem Reachable.nextPid_eq (ht : Reachable map kernelEnd m t) {ops : List Operation}
    (h : ops.foldlM after t = some t') : t'.state.nextPid = t.state.nextPid + spawns t ops := by
  induction ops generalizing t with
  | nil =>
    cases h
    rfl
  | cons op ops ih =>
    rw [List.foldlM_cons, Option.bind_eq_bind, Option.bind_eq_some_iff] at h
    obtain ⟨u, hu, hrest⟩ := h
    have hop := after_eq_some.mp hu
    obtain ⟨answered, hattempt⟩ := attempt_of_perform hop
    have hnext := (ht.attempt hattempt).nextPid
    rw [ih (ht.step op hop) hrest, hnext, spawns, hattempt, Nat.add_assoc]

/-- A run goes on to its end as long as it asks for fewer processes than there are numbers. -/
theorem Reachable.completes (hm : Backed map kernelEnd m.ram) (ht : Reachable map kernelEnd m t)
    (ops : List Operation)
    (hpids : t.state.nextPid + ops.countP Operation.isSpawn < 4294967296) :
    ∃ t', ops.foldlM after t = some t' := by
  induction ops generalizing t with
  | nil => exact ⟨t, rfl⟩
  | cons op ops ih =>
    rw [List.countP_cons] at hpids
    have hleft : op.isSpawn = true → t.state.PidsLeft := by
      intro hspawn
      rw [if_pos hspawn] at hpids
      simp only [PidsLeft]
      omega
    obtain ⟨answered, u, hattempt⟩ := ht.inv.1.performs hm.no_gap op hleft t.events
    have hnext := (ht.attempt hattempt).nextPid
    have hop := perform_of_attempt hattempt
    have hasked := spawned_le_asked op answered
    obtain ⟨t', hrest⟩ := ih (ht.step op hop) (by omega)
    refine ⟨t', ?_⟩
    rw [List.foldlM_cons, after_eq_some.mpr hop]
    exact hrest

/-- The kernel never faults once it is up, and booting faults for those maps only whose
frames above the window, counted region by region, are too many for a length. After any
run every operation comes to an answer, a spawn as long as it makes fewer than 2³² - 1 of
them, so that runs which ask for fewer go on to their end. -/
theorem never_faults (map : BootMap) (kernelEnd : PhysicalAddress) (m : Machine)
    (hm : Backed map kernelEnd m.ram) :
    ((∃ answer u, (boot map kernelEnd).run ⟨m, #[]⟩ = .ok answer u) ↔
      Seeding.totalLeftOut map kernelEnd ≤ maxLength) ∧
    ∀ space u, (boot map kernelEnd).run ⟨m, #[]⟩ = .ok (.ok space) u →
      (∀ ops t, ops.foldlM after ⟨ofBoot u.state space, u.events⟩ = some t → ∀ op : Operation,
        (op.isSpawn = true → spawns ⟨ofBoot u.state space, u.events⟩ ops + 1 < 4294967295) →
          ∃ answered t', op.attempt t = .ok answered t') ∧
      ∀ ops : List Operation, ops.countP Operation.isSpawn < 4294967295 →
        ∃ t, run map kernelEnd m ops = some t := by
  refine ⟨⟨?_, fun hfits => ?_⟩, fun space u hrun => ?_⟩
  · rintro ⟨answer, u, hrun⟩
    by_contra hover
    rw [boot_of_overfull hover] at hrun
    cases hrun
  · have hreach : ∀ f, Managed map kernelEnd f → m.ram.installed f ∨ False :=
      fun f hf => .inl (hm.installed hf)
    have hnever : ¬ (False ∨ Overfull map kernelEnd) := by
      rintro (hf | hover)
      · exact hf
      · exact hover hfits
    obtain ⟨answer, u, hrun, -⟩ :=
      Op.Meets.exists_answer ((boot_meets map kernelEnd m hreach).widen hnever) #[]
    exact ⟨answer, u, hrun⟩
  have hbooted : Reachable map kernelEnd m ⟨ofBoot u.state space, u.events⟩ := .boot hrun
  refine ⟨fun ops t hops op hspawn => ?_, fun ops hcount => ?_⟩
  · have ht := reachable_of_after ops hbooted hops
    have hnext : t.state.nextPid = 1 + spawns ⟨ofBoot u.state space, u.events⟩ ops :=
      hbooted.nextPid_eq hops
    refine ht.inv.1.performs hm.no_gap op (fun h => ?_) t.events
    have hleft := hspawn h
    simp only [PidsLeft]
    omega
  · have hfirst : (ofBoot u.state space).nextPid = 1 := rfl
    obtain ⟨t, ht⟩ := hbooted.completes hm ops (by
      rw [hfirst]
      omega)
    refine ⟨t, ?_⟩
    rw [run, hrun]
    exact ht

theorem never_faults_reading : Backed nineFrames (.ofBits 0) (.arena 10) ∧ ∃ t, reading = some t ∧
    ∃ answered t', (Operation.exit ⟨1⟩).attempt t = .ok answered t' := by
  obtain ⟨t, -, hreading, -⟩ := reading_in_flight
  refine ⟨backed_nineFrames, t, hreading, ?_⟩
  obtain ⟨space, u, hrun, hops⟩ := exists_boot_of_run hreading
  have hfaultless := never_faults nineFrames (.ofBits 0) ⟨.arena 10, .empty⟩ backed_nineFrames
  exact (hfaultless.2 space u hrun).1 _ t hops (.exit ⟨1⟩) nofun

/-- So many regions of 4 GiB that the frames they leave out are no length any more. -/
def overlapping : BootMap :=
  List.replicate 18764998447378 ⟨0, 4294967296, .usable⟩

theorem foldl_add_replicate (n b a : Nat) :
    (List.replicate n b).foldl (· + ·) a = a + n * b := by
  induction n generalizing a with
  | zero => rw [List.replicate_zero, List.foldl_nil, Nat.zero_mul, Nat.add_zero]
  | succ n ih => rw [List.replicate_succ, List.foldl_cons, ih, Nat.succ_mul]; omega

theorem overfull_overlapping : Overfull overlapping (.ofBits 0) := by
  have heach : Seeding.leftOut (.ofBits 0) ⟨0, 4294967296, .usable⟩ = 983040 := by decide
  have htotal : Seeding.totalLeftOut overlapping (.ofBits 0) = 0 + 18764998447378 * 983040 := by
    rw [Seeding.totalLeftOut, overlapping, BootMap.usable, List.filter_replicate_of_pos rfl,
      List.map_replicate, heach, foldl_add_replicate]
  rw [Overfull, htotal]
  decide

theorem not_never_faults_overlapping : Backed overlapping (.ofBits 0) .identityWindow ∧
    ∃ u, (boot overlapping (.ofBits 0)).run ⟨⟨.identityWindow, .empty⟩, #[]⟩ =
      .error .addOverflow u :=
  ⟨.identityWindow Array.size_replicate, _, boot_of_overfull overfull_overlapping _ _⟩

end PagedKernel.Kernel
