import PagedKernel.Proofs.Agreement
import PagedKernel.Proofs.Kernel.Invariant
import PagedKernel.Proofs.Kernel.Process
import PagedKernel.Proofs.Range.Fresh

/-! What the calls of the kernel make of it. A call that is answered or refused has
changed one space, as the operation on that space says, and the kernel around it. -/

namespace PagedKernel.Kernel

variable {k k' : Kernel} {p : Process} {pid : ProcessId} {managed : Frame → Prop} {gap : Prop}

structure Spawned (k k' : Kernel) (p : Process) (m' : Machine) : Prop where
  created : AddressSpace.Created k.machine m' p.space
  process : p = .first ⟨k.nextPid⟩ p.space.directory
  kernel : k' = { k with machine := m', processes := k.processes ++ [p], nextPid := k.nextPid + 1 }

/-- Numbers run out before 2^32 processes were created. -/
def PidsLeft (k : Kernel) : Prop :=
  k.nextPid < 4294967295

theorem spawn_meets (h : Inv managed gap k) : spawn.Meets (gap ∨ ¬ k.PidsLeft) k
    (fun pid k' => ∃ p m', Spawned k k' p m' ∧ pid = p.pid)
    fun e k' => e = .paging .outOfFrames ∧ k' = k := by
  have hreach : ∀ f, k.machine.pool.isAvailable f = true → k.machine.ram.installed f ∨
      (gap ∨ ¬ k.PidsLeft) :=
    fun f hf => (h.steady.reaches f ⟨none, hf⟩).imp_right .inl
  unfold spawn
  refine Call.get_bind_meets fun events => ?_
  obtain ⟨machine, space, processes, nextPid, queue, slots⟩ := k
  refine Call.Meets.bind (m := fun p k' => ∃ m', AddressSpace.Created machine m' p.space ∧
    p = .first ⟨nextPid⟩ p.space.directory ∧
    k' = ⟨m', space, processes, nextPid, queue, slots⟩) ?_ ?_
  · refine Call.adapt_meets (Call.zoom_meets machinePart
      ((Process.create_meets h.steady.custody.pool hreach _).mono ?_ ?_))
    · rintro p m' ⟨hc, hp⟩
      exact ⟨m', hc, hp, rfl⟩
    · rintro e m' ⟨rfl, rfl, -⟩
      exact ⟨rfl, rfl⟩
  rintro p k' ⟨m', hc, hp, rfl⟩
  have htake : (takePid : Op Kernel Unit).Meets (gap ∨ ¬ nextPid < 4294967295)
      ⟨m', space, processes, nextPid, queue, slots⟩
      fun _ k' => k' = ⟨m', space, processes, nextPid + 1, queue, slots⟩ := by
    unfold takePid
    refine (Op.read_gives _).bind ?_
    split
    · exact (Op.modify_gives _).meets rfl
    · next hn => exact Op.fault_meets (.inr hn)
  refine Call.lift_bind_meets htake ?_
  rintro - k' rfl
  refine Call.record_bind_meets (by rintro ⟨⟩) ?_
  refine (Op.modify_gives _).lift_bind (Call.pure_meets ⟨p, m', ⟨hc, hp, rfl⟩, ?_⟩)
  exact (congrArg Process.pid hp).symm

def DevicePage (base : PhysicalAddress) (size p : Nat) : Prop :=
  isDeviceRange base size = true ∧ Mmu.InIdentity base size p

theorem mapDevice_meets (h : Inv managed gap k) (base : PhysicalAddress) (size : Nat) :
    (mapDevice base size).Meets gap k
      (fun _ k' => ∃ w, Mmu.Identified (DevicePage base size) true k.mmu w ∧ k' = k.withMmu w)
      fun _ k' => ∃ w, Mmu.Identified (DevicePage base size) true k.mmu w ∧ k' = k.withMmu w := by
  unfold mapDevice
  cases hdev : isDeviceRange base size with
  | false =>
    rw [if_neg Bool.false_ne_true]
    exact Call.record_bind_meets (by rintro ⟨⟩)
      (Call.throw_bind_meets ⟨k.mmu, .refl h.steady.sound, rfl⟩)
  | true =>
    have hpage : ∀ p, Mmu.InIdentity base size p → DevicePage base size p := fun _ hp => ⟨hdev, hp⟩
    rw [if_pos rfl]
    refine Call.Meets.bind (m := fun _ k' =>
      ∃ w, Mmu.Identified (DevicePage base size) true k.mmu w ∧ k' = k.withMmu w) ?_ ?_
    · refine Call.adapt_meets (Call.report_meets (by rintro e ⟨⟩) (Call.zoom_meets spacePart ?_))
      refine (Mmu.mapIdentity_meets h.steady.sound h.steady.reaches base size true).mono ?_ ?_
      · rintro n w ⟨hw, -⟩
        exact ⟨w, hw.mono hpage, rfl⟩
      · exact fun e w hw => ⟨w, hw.mono hpage, rfl⟩
    · rintro n k' hk
      exact Call.record_bind_meets (by rintro ⟨⟩) (Call.pure_meets hk)

theorem requireProcess_run (h : k.process? pid = some p) (events : Array Event) :
    (requireProcess pid).run ⟨k, events⟩ = .ok (.ok p) ⟨k, events⟩ := by
  refine (Call.run_get_bind _).trans ?_
  simp only [h]
  rfl

theorem requireProcess_refused (h : k.process? pid = none) (events : Array Event) :
    (requireProcess pid).run ⟨k, events⟩ = .ok (.error (.noSuchProcess pid)) ⟨k, events⟩ := by
  refine (Call.run_get_bind _).trans ?_
  simp only [h]
  rfl

theorem requireProcess_bind_meets {β : Type} {f : Process → Call KernelError Kernel β}
    {answered : β → Kernel → Prop} {refused : KernelError → Kernel → Prop}
    (hf : ∀ p, k.process? pid = some p → (f p).Meets gap k answered refused)
    (hn : k.process? pid = none → refused (.noSuchProcess pid) k) :
    (requireProcess pid >>= f).Meets gap k answered refused := by
  refine Call.Meets.bind (m := fun p k' => k' = k ∧ k.process? pid = some p) ?_ ?_
  · unfold requireProcess
    refine Call.get_bind_meets fun events => ?_
    dsimp only
    cases hp : k.process? pid with
    | none => exact Call.throw_meets (hn hp)
    | some p => exact Call.pure_meets ⟨rfl, rfl⟩
  · rintro p k' ⟨rfl, hp⟩
    exact hf p hp

theorem map_meets (h : Inv managed gap k) (pid : ProcessId) (hint : VirtualAddress)
    (length : Nat) (writable : Bool) :
    (map pid hint length writable).Meets gap k
      (fun base k' => ∃ p w, k.process? pid = some p ∧ k' = k.withUser p w ∧
        Mmu.Mapped writable true ⟨k.machine, p.space⟩ w (hint.max MemoryLayout.userBaseAddress)
          base length)
      fun e k' => k' = k ∧ k.process? pid = none ∨
        ∃ p w cause, k.process? pid = some p ∧ k' = k.withUser p w ∧
          Mmu.Restored true ⟨k.machine, p.space⟩ w ∧ e = .mapping cause ∧
          Mmu.MapRefused ⟨k.machine, p.space⟩ (hint.max MemoryLayout.userBaseAddress) length
            cause := by
  unfold map
  refine requireProcess_bind_meets ?_ fun hp => .inl ⟨rfl, hp⟩
  intro p hp
  have hu := users_of_process? hp
  refine Call.adapt_meets (Call.report_meets (by rintro e ⟨⟩) (Call.zoom_meets (processPart p) ?_))
  refine (Mmu.map_meets (h.steady.userSound hu) (h.steady.userTrimmed hu)
    (fun _ => (h.steady.userReaches hu).installed) _ _).mono ?_ ?_
  · exact fun base w hw => ⟨p, w, hp, rfl, hw⟩
  · exact fun e w hw => .inr ⟨p, w, e, hp, rfl, hw.1, rfl, hw.2⟩

theorem withUser_self (hn : (k.processes.map (·.pid)).Nodup) (hp : k.process? pid = some p) :
    k.withUser p ⟨k.machine, p.space⟩ = k := by
  obtain ⟨hmem, rfl⟩ := mem_of_process? hp
  have hsame : k.processes.map (fun q => if q.pid = p.pid then { q with space := p.space } else q) =
      k.processes := by
    refine (List.map_congr_left fun q hq => ?_).trans (List.map_id _)
    split
    · next he =>
      have hq' := process?_of_mem hn hq
      rw [he, hp] at hq'
      rw [Option.some.inj hq']
      rfl
    · rfl
  unfold withUser changeProcess
  dsimp only
  rw [hsame]

theorem unmap_meets (h : Inv managed gap k) (pid : ProcessId) (va : VirtualAddress)
    (length : Nat) :
    (unmap pid va length).Meets gap k
      (fun _ k' => ∃ p w, k.process? pid = some p ∧ k' = k.withUser p w ∧
        k.queue.borrows pid va length = false ∧ length ≠ 0 ∧
        length + va.offset.toNat ≤ maxLength ∧ Mmu.Unassigned ⟨k.machine, p.space⟩ w va.pageNumber
          (pagesSpanning (length + va.offset.toNat)))
      fun _ k' => k' = k := by
  unfold unmap
  refine requireProcess_bind_meets ?_ fun _ => rfl
  intro p hp
  have hu := users_of_process? hp
  refine Call.get_bind_meets fun events => ?_
  dsimp only
  split
  · exact Call.record_bind_meets (by rintro ⟨⟩) (Call.throw_bind_meets rfl)
  · next hb =>
    refine Call.adapt_meets (Call.report_meets (by rintro e ⟨⟩)
      (Call.zoom_meets (processPart p) ?_))
    refine (Mmu.unmap_meets (h.steady.userSound hu) va length).mono ?_ ?_
    · rintro - w ⟨h0, hmax, hw⟩
      exact ⟨p, w, hp, rfl, Bool.eq_false_iff.mpr hb, h0, hmax, hw⟩
    · rintro e w rfl
      exact withUser_self h.pids hp

def withRead (k : Kernel) (pid : ProcessId) (r : Read) : Kernel :=
  { k with slots := k.slots.handOut.2, queue := ⟨k.queue.entries ++ [⟨pid, r⟩]⟩ }

/-- The kernel after a read was queued for a process on another kernel space. -/
def queueing (k : Kernel) (pid : ProcessId) (r : Read) (w : Mmu) : Kernel :=
  ((k.withMmu w).withRead pid r).changeProcess pid (Process.waitFor .fileReading)

theorem openSlot_gives (k : Kernel) :
    openSlot.Gives k k.slots.cells.size { k with slots := k.slots.handOut.2 } :=
  Op.update_gives _

theorem submit_meets (q : ReadQueue) (pid : ProcessId) (r : Read) :
    (ReadQueue.submit pid r).Meets gap q fun _ q' => q' = ⟨q.entries ++ [⟨pid, r⟩]⟩ := by
  unfold ReadQueue.submit
  exact (Op.record_gives (by rintro ⟨⟩)).bind ((Op.modify_gives _).meets rfl)

theorem read_meets (h : Inv managed gap k) (pid : ProcessId) (fd : Fd) (buffer : VirtualAddress)
    (count : Nat) :
    (read pid fd buffer count).Meets gap k
      (fun slot k' => slot = k.slots.cells.size ∧ ∃ p r w, k.process? pid = some p ∧
        r.Prepared ⟨k.machine, p.space⟩ k.mmu w ∧ r.Starts fd buffer k.slots.cells.size ∧
        k' = k.queueing pid r w)
      fun _ k' => ∃ w, Mmu.Restored false k.mmu w ∧ k' = k.withMmu w := by
  unfold read
  refine requireProcess_bind_meets ?_ fun _ => ⟨k.mmu, .refl h.steady.sound, rfl⟩
  intro p hp
  have hu := users_of_process? hp
  refine Call.get_bind_meets fun events => ?_
  dsimp only
  refine Call.Meets.bind (m := fun r k' => ∃ w, r.Prepared ⟨k.machine, p.space⟩ k.mmu w ∧
    r.Starts fd buffer k.slots.cells.size ∧ k' = k.withMmu w) ?_ ?_
  · refine Call.adapt_meets (Call.report_meets (by rintro e ⟨⟩) (Call.zoom_meets spacePart ?_))
    refine (Read.prepare_meets h.steady.sound h.steady.trimmed h.steady.reaches
      (h.steady.userSound hu) fd buffer count _).mono ?_ ?_
    · rintro r w ⟨hprepared, hr⟩
      exact ⟨w, hprepared, hr, rfl⟩
    · exact fun e w hw => ⟨w, hw, rfl⟩
  rintro r k' ⟨w, hprepared, hr, rfl⟩
  refine (openSlot_gives _).lift_bind ?_
  refine Call.Meets.bind (m := fun _ k' => k' = (k.withMmu w).withRead pid r)
    (Call.zoomOp_meets queuePart ((submit_meets _ pid r).mono ?_)) ?_
  · rintro - q rfl
    rfl
  rintro - k' rfl
  refine (Op.modify_gives _).lift_bind (Call.pure_meets ⟨rfl, ?_⟩)
  exact ⟨p, r, w, hp, hprepared, hr, rfl⟩

theorem Inv.serving (h : Inv managed gap k) :
    Serving managed gap k.users k.machine k.mmu k.slots k.queue.entries :=
  ⟨h.steady, fun _ u _ => .refl k.machine u⟩

/-- A pass over the reads of a kernel, up to where the kernel space is `v`. -/
def Passed (k k' : Kernel) (ended : List Completion) (v : Mmu) : Prop :=
  ReadQueue.Pass (fun r v => Returned v r.loan) k.mmu k.slots k.queue.entries ended
    k'.queue.entries v k'.slots

/-- What the end of a process leaves: its reads were cancelled one by one, and then
its frames went back to the pool. -/
structure Ended (managed : Frame → Prop) (gap : Prop) (k k' : Kernel) (p : Process) (v : Mmu) :
    Prop where
  serving : Serving managed gap k.users k.machine v k'.slots k'.queue.entries
  freed : Machine.Freed v.machine k'.machine (Mmu.mk v.machine p.space).heldFrames
  space : k'.space = v.space
  processes : k'.processes = k.processes.filter fun q => q.pid ≠ p.pid
  nextPid : k'.nextPid = k.nextPid
  entries : k'.queue.entries = k.queue.entries.filter fun e => !decide (e.pid = p.pid)
  passed : ∃ cancelled, Passed k k' cancelled v ∧ ∀ c ∈ cancelled, c.result = .error .cancelled

theorem exit_meets (h : Inv managed gap k) (pid : ProcessId) :
    (exit pid).Meets gap k
      (fun _ k' => ∃ p v, k.process? pid = some p ∧ Ended managed gap k k' p v)
      fun _ k' => k' = k := by
  unfold exit
  refine requireProcess_bind_meets ?_ fun _ => rfl
  intro p hp
  obtain ⟨-, rfl⟩ := mem_of_process? hp
  have hu := users_of_process? hp
  refine (Op.modify_gives _).lift_bind ?_
  refine Call.Meets.bind (m := fun cancelled k₁ =>
      Serving managed gap k.users k.machine k₁.mmu k₁.slots k₁.queue.entries ∧
        k₁.processes = (k.processes.filter fun q => q.pid ≠ p.pid) ∧ k₁.nextPid = k.nextPid ∧
        k₁.queue.entries = (k.queue.entries.filter fun e => !decide (e.pid = p.pid)) ∧
        Passed k k₁ cancelled k₁.mmu ∧ ∀ c ∈ cancelled, c.result = .error .cancelled)
    (Call.zoomOp_meets idleReadsPart ((ReadQueue.cancelWhere_meets (served none)
      h.serving).mono ?_)) ?_
  · rintro cancelled ⟨q, ⟨d, v, slots⟩⟩ ⟨hserving, hc⟩
    exact ⟨hserving, rfl, rfl, hc.entries, hc.pass, hc.results⟩
  rintro cancelled ⟨machine, space, processes, nextPid, queue, slots⟩
    ⟨hserving, hps, hn, hes, hpass, hresults⟩
  dsimp only at hps hn hes
  subst hps hn
  refine Call.Meets.bind (m := fun _ k' => Ended managed gap k k' p ⟨machine, space⟩)
    (Call.zoomOp_meets machinePart ((AddressSpace.release_meets
      (hserving.1.userSound hu)).mono ?_)) ?_
  · exact fun _ m' hf => ⟨hserving, hf, rfl, rfl, rfl, hes, cancelled, hpass, hresults⟩
  · intro _ k' hk
    refine Call.get_bind_meets fun events => ?_
    exact Call.record_meets (by rintro ⟨⟩) ⟨p, _, hp, hk⟩

/-- What a tick makes of the kernel, before processes are woken and parked. -/
structure Polled (managed : Frame → Prop) (gap : Prop) (k k' : Kernel)
    (ended : List Completion) : Prop where
  serving : Serving managed gap k.users k.machine k'.mmu k'.slots k'.queue.entries
  processes : k'.processes = k.processes
  nextPid : k'.nextPid = k.nextPid
  passed : Passed k k' ended k'.mmu

theorem tick_meets {δ : Type} (h : Inv managed gap k) (device : Device δ) (state : δ)
    (asyncReads : Bool) :
    (tick device asyncReads).Meets gap (k, state) fun ended t => ∃ k₁ : Kernel,
      Polled managed gap k k₁ ended ∧ t.1 = (wakeAll ended k₁).parkAll := by
  unfold tick
  refine Op.Meets.bind (m := fun ended t => Polled managed gap k t.1 ended)
    (Op.zoom_meets readsPart ((ReadQueue.pollAll_meets (served none) h.serving).mono ?_)) ?_
  · rintro ended ⟨q, ⟨d, v, slots⟩⟩ ⟨hserving, hpass⟩
    exact ⟨hserving, rfl, rfl, hpass⟩
  · rintro ended ⟨k₁, d⟩ hk
    exact (Op.modify_gives _).bind (Op.pure_meets ⟨k₁, hk, rfl⟩)

end PagedKernel.Kernel
