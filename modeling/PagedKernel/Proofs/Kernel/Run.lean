import PagedKernel.Proofs.Kernel.Boot
import PagedKernel.Proofs.Kernel.Preservation

/-! Runs of the kernel: it is booted, and then operations follow in any order, with any
arguments and any answers of the device. A run goes on after an operation was answered
or refused, and stops when one faults. -/

namespace PagedKernel.Kernel

variable {map : BootMap} {kernelEnd : PhysicalAddress} {m : Machine} {k : Kernel}
  {managed : Frame → Prop} {gap : Prop} {t t' : Traced Kernel} {op : Operation} {answered : Bool}

theorem perform_meets (h : Inv managed gap k) (op : Operation) :
    op.perform.Meets (gap ∨ ¬ k.PidsLeft) k fun _ k' => Inv managed gap k' ∧ op.Leaves k k' :=
  (perform_outcome h op).mono fun _ _ ⟨_, ho⟩ => ho.keeps h

theorem attempt_of_perform (h : op.perform t = .ok () t') :
    ∃ answered, op.attempt t = .ok answered t' := by
  rw [Operation.perform_eq, Op.bind_eq_ok] at h
  obtain ⟨answered, w, hrun, hpure⟩ := h
  cases hpure
  exact ⟨answered, hrun⟩

theorem perform_of_attempt (h : op.attempt t = .ok answered t') : op.perform t = .ok () t' := by
  rw [Operation.perform_eq, Op.bind_eq_ok]
  exact ⟨answered, t', h, rfl⟩

/-- The states of a run, with the events reported since the kernel was booted on the
machine `m`. -/
inductive Reachable (map : BootMap) (kernelEnd : PhysicalAddress) (m : Machine) :
    Traced Kernel → Prop
  | boot {space : AddressSpace} {m' : Machine} {events : Array Event} :
    (Kernel.boot map kernelEnd).run ⟨m, #[]⟩ = .ok (.ok space) ⟨m', events⟩ →
      Reachable map kernelEnd m ⟨ofBoot m' space, events⟩
  | step {t t' : Traced Kernel} (op : Operation) :
    Reachable map kernelEnd m t → op.perform t = .ok () t' → Reachable map kernelEnd m t'

/-- Some managed frame is not there to be touched. -/
def Gap (map : BootMap) (kernelEnd : PhysicalAddress) (m : Machine) : Prop :=
  ∃ f, Managed map kernelEnd f ∧ ¬ m.ram.installed f

namespace Reachable

theorem booted {space : AddressSpace} {m' : Machine} {events : Array Event}
    (hrun : (Kernel.boot map kernelEnd).run ⟨m, #[]⟩ = .ok (.ok space) ⟨m', events⟩) :
    Booted map kernelEnd (Gap map kernelEnd m) (ofBoot m' space) ∧ Quiet #[] events := by
  have hreach : ∀ f, Managed map kernelEnd f → m.ram.installed f ∨ Gap map kernelEnd m :=
    fun f hf => Classical.or_iff_not_imp_left.mpr fun hn => ⟨f, hf, hn⟩
  exact Op.Meets.post (boot_meets map kernelEnd m hreach) hrun

/-- The invariant holds all along a run, and nothing is reported at the error level. -/
theorem inv (h : Reachable map kernelEnd m t) :
    Inv (Managed map kernelEnd) (Gap map kernelEnd m) t.state ∧ Quiet #[] t.events := by
  induction h with
  | boot hrun => exact (booted hrun).imp_left Booted.inv
  | step op _ hrun ih =>
    obtain ⟨⟨hinv, -⟩, hquiet⟩ := Op.Meets.post (perform_meets ih.1 op) hrun
    exact ⟨hinv, ih.2.trans hquiet⟩

theorem outcome (h : Reachable map kernelEnd m t) (hop : op.perform t = .ok () t') :
    ∃ answered, Outcome (Managed map kernelEnd) (Gap map kernelEnd m) t.state op answered
      t'.state :=
  (Op.Meets.post (perform_outcome h.inv.1 op) hop).1

theorem attempt (ht : Reachable map kernelEnd m t) (h : op.attempt t = .ok answered t') :
    Outcome (Managed map kernelEnd) (Gap map kernelEnd m) t.state op answered t'.state :=
  (Op.Meets.post (attempt_outcome ht.inv.1 op) h).1

/-- What holds after booting, and is kept by every outcome, holds all along a run. -/
theorem preserved {P : Kernel → Prop}
    (hboot : ∀ {space : AddressSpace} {m' : Machine},
      Booted map kernelEnd (Gap map kernelEnd m) (ofBoot m' space) → P (ofBoot m' space))
    (hstep : ∀ {k k' : Kernel} {op : Operation} {answered : Bool},
      Inv (Managed map kernelEnd) (Gap map kernelEnd m) k → P k →
        Outcome (Managed map kernelEnd) (Gap map kernelEnd m) k op answered k' → P k')
    (h : Reachable map kernelEnd m t) : P t.state := by
  induction h with
  | boot hrun => exact hboot (booted hrun).1
  | step op ht hop ih =>
    obtain ⟨_, ho⟩ := ht.outcome hop
    exact hstep ht.inv.1 ih ho

theorem perform (h : Reachable map kernelEnd m t) (op : Operation) :
    match op.perform t with
    | .ok _ t' => (Inv (Managed map kernelEnd) (Gap map kernelEnd m) t'.state ∧
        op.Leaves t.state t'.state) ∧ Quiet t.events t'.events
    | .error _ t' => (Gap map kernelEnd m ∨ ¬ t.state.PidsLeft) ∧ Quiet t.events t'.events := by
  have hmeets := perform_meets h.inv.1 op t.events
  revert hmeets
  cases op.perform t with
  | ok u t' => exact id
  | error f t' => exact id

end Reachable

def after (t : Traced Kernel) (op : Operation) : Option (Traced Kernel) :=
  match op.perform t with
  | .ok _ t' => some t'
  | .error _ _ => none

/-- Boots a kernel and carries operations out, unless the boot fails or one of them faults. -/
def run (map : BootMap) (kernelEnd : PhysicalAddress) (m : Machine) (ops : List Operation) :
    Option (Traced Kernel) :=
  match (Kernel.boot map kernelEnd).run ⟨m, #[]⟩ with
  | .ok (.ok space) t => ops.foldlM after ⟨ofBoot t.state space, t.events⟩
  | _ => none

theorem after_eq_some {op : Operation} : after t op = some t' ↔ op.perform t = .ok () t' := by
  unfold after
  cases op.perform t with
  | ok u t' => simp
  | error f t' => simp

theorem reachable_of_after (ops : List Operation) (ht : Reachable map kernelEnd m t)
    (h : ops.foldlM after t = some t') : Reachable map kernelEnd m t' := by
  induction ops generalizing t with
  | nil =>
    cases h
    exact ht
  | cons op ops ih =>
    rw [List.foldlM_cons, Option.bind_eq_bind, Option.bind_eq_some_iff] at h
    obtain ⟨u, hu, h⟩ := h
    exact ih (ht.step op (after_eq_some.mp hu)) h

theorem preserved_along {P : Kernel → Prop} {A : Operation → Prop}
    (hstep : ∀ {k k' : Kernel} {op : Operation} {answered : Bool},
      Inv (Managed map kernelEnd) (Gap map kernelEnd m) k → A op → P k →
        Outcome (Managed map kernelEnd) (Gap map kernelEnd m) k op answered k' → P k')
    {ops : List Operation} (hops : ∀ op ∈ ops, A op) (ht : Reachable map kernelEnd m t)
    (hP : P t.state) (h : ops.foldlM after t = some t') : P t'.state := by
  induction ops generalizing t with
  | nil =>
    cases h
    exact hP
  | cons op ops ih =>
    rw [List.foldlM_cons, Option.bind_eq_bind, Option.bind_eq_some_iff] at h
    obtain ⟨u, hu, h⟩ := h
    have hop := after_eq_some.mp hu
    obtain ⟨_, ho⟩ := ht.outcome hop
    exact ih (fun o ho => hops o (List.mem_cons_of_mem _ ho)) (ht.step op hop)
      (hstep ht.inv.1 (hops op List.mem_cons_self) hP ho) h

theorem reachable_iff : Reachable map kernelEnd m t ↔ ∃ ops, run map kernelEnd m ops = some t := by
  constructor
  · intro h
    induction h with
    | boot hrun =>
      refine ⟨[], ?_⟩
      rw [run, hrun]
      rfl
    | step op _ hop ih =>
      obtain ⟨ops, h⟩ := ih
      refine ⟨ops ++ [op], ?_⟩
      rw [run] at h ⊢
      split at h
      · rw [List.foldlM_append, h]
        simpa [after_eq_some] using hop
      · cases h
  · rintro ⟨ops, h⟩
    rw [run] at h
    split at h
    · next space u hrun => exact reachable_of_after ops (.boot hrun) h
    · cases h

theorem exists_boot_of_run {ops : List Operation} (h : run map kernelEnd m ops = some t) :
    ∃ space u, (Kernel.boot map kernelEnd).run ⟨m, #[]⟩ = .ok (.ok space) u ∧
      ops.foldlM after ⟨ofBoot u.state space, u.events⟩ = some t := by
  rw [run] at h
  split at h
  · next space u hrun => exact ⟨space, u, hrun, h⟩
  · cases h

theorem booted_of_run {ops : List Operation} (h : run map kernelEnd m ops = some t) :
    ∃ t₀, Reachable map kernelEnd m t₀ ∧ t₀.state.queue.entries = [] ∧
      ops.foldlM after t₀ = some t := by
  obtain ⟨space, u, hrun, hops⟩ := exists_boot_of_run h
  exact ⟨_, .boot hrun, rfl, hops⟩

def nineFrames : BootMap :=
  [⟨4096, 36864, .usable⟩]

/-- A run with two processes, one of which reads into a page it mapped. -/
def reading : Option (Traced Kernel) :=
  run nineFrames (.ofBits 0) ⟨.arena 10, .empty⟩ [.spawn, .spawn,
    .map ⟨1⟩ (.ofBits 0) 4096 true, .read ⟨1⟩ ⟨3⟩ (.ofBits 268435460) 10]

theorem reading_in_flight : ∃ t, Reachable nineFrames (.ofBits 0) ⟨.arena 10, .empty⟩ t ∧
    reading = some t ∧ (∃ e ∈ t.state.queue.entries, 0 < e.read.count) ∧
      (t.state.process? ⟨2⟩).isSome = true := by
  have hrun : (reading.any fun t => (t.state.queue.entries.any fun e => 0 < e.read.count) &&
      (t.state.process? ⟨2⟩).isSome) = true := by
    simp only [reading, run, List.foldlM_cons, List.foldlM_nil, after, Operation.perform, spawn,
      Process.create_eq]
    decide +kernel
  obtain ⟨t, ht, h⟩ := (Option.any_eq_true _ _).mp hrun
  rw [Bool.and_eq_true, List.any_eq_true] at h
  obtain ⟨⟨e, he, hc⟩, hp⟩ := h
  exact ⟨t, reachable_iff.mpr ⟨_, ht⟩, ht, ⟨e, he, of_decide_eq_true hc⟩, hp⟩

/-- The broken invariants that the kernel can report. -/
inductive Breach : Event → Prop
  | pageNotFreed (page : Nat) (f : Frame) (cause : FrameError) :
    Breach (.space (.pageNotFreed page f cause))
  | tableNotFreed (table : Frame) (cause : FrameError) :
    Breach (.space (.tableNotFreed table cause))
  | ownedNotReleased (f : Frame) (cause : FrameError) :
    Breach (.space (.ownedNotReleased f cause))
  | tableNotReleased (table : Frame) (cause : FrameError) :
    Breach (.space (.tableNotReleased table cause))
  | directoryNotReleased (directory : Frame) (cause : FrameError) :
    Breach (.space (.directoryNotReleased directory cause))
  | freshNotReturned (f : Frame) (cause : FrameError) :
    Breach (.range (.freshNotReturned f cause))
  | rollbackFailed (pages first : Nat) (cause : PagingError) :
    Breach (.range (.rollbackFailed pages first cause))
  | lendingKept (base : VirtualAddress) (span : Nat) (user : VirtualAddress) (cause : AliasError) :
    Breach (.read (.lendingKept base span user cause))
  | resolvedTwice (rejected : ReadResult) : Breach (.read (.resolvedTwice rejected))
  | dropped (fd : Fd) (state : ReadState) (base : VirtualAddress) (span : Nat) :
    Breach (.read (.dropped fd state base span))
  | endedWithoutResult (pid : ProcessId) (fd : Fd) :
    Breach (.queue (.endedWithoutResult pid fd))

theorem breach_iff (e : Event) : Breach e ↔ e.level = .error := by
  constructor
  · intro h
    cases h <;> rfl
  · intro h
    rcases e with e | e | e | e | e | e <;> cases e <;> first | constructor | cases h

theorem not_breach_of_quiet {events : Array Event} (h : Quiet #[] events) :
    ∀ e ∈ events, ¬ Breach e := by
  obtain ⟨new, hevents, hlevel⟩ := h
  intro e he
  rw [breach_iff]
  refine hlevel e ?_
  rwa [Array.mem_def, hevents, List.nil_append] at he

/-- No operation of a run finds an invariant broken, not even one that faults. -/
theorem no_breach_reported (h : Reachable map kernelEnd m t) (op : Operation) :
    (∀ e ∈ t.events, ¬ Breach e) ∧
      match op.perform t with
      | .ok _ t' | .error _ t' => ∀ e ∈ t'.events, ¬ Breach e := by
  have hquiet := h.inv.2
  refine ⟨not_breach_of_quiet hquiet, ?_⟩
  have hstep := h.perform op
  revert hstep
  cases op.perform t with
  | ok u t' => exact fun hstep => not_breach_of_quiet (hquiet.trans hstep.2)
  | error f t' => exact fun hstep => not_breach_of_quiet (hquiet.trans hstep.2)

theorem no_breach_reported_reading : ∃ t, reading = some t ∧ (∀ e ∈ t.events, ¬ Breach e) ∧
    match (Operation.exit ⟨1⟩).perform t with
    | .ok _ t' | .error _ t' => ∀ e ∈ t'.events, ¬ Breach e := by
  obtain ⟨t, ht, hreading, -⟩ := reading_in_flight
  exact ⟨t, hreading, no_breach_reported ht (.exit ⟨1⟩)⟩

end PagedKernel.Kernel
