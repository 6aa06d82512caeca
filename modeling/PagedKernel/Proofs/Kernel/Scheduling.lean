import PagedKernel.Proofs.Kernel.Run

/-! When processes are parked. A process waits exactly while a read of it is queued:
queueing a read parks it, a tick wakes it with its completions and parks it again while
some of its reads are left, and no other operation touches either side. -/

namespace PagedKernel.Kernel

variable {k k' : Kernel} {p : Process} {pid : ProcessId} {managed : Frame → Prop} {gap : Prop}

/-! Waking and parking -/

theorem foldl_overwrites {α β : Type} {f : β → α → α} (hf : ∀ a b x, f b (f a x) = f b x)
    (bs : List β) (x : α) : bs.foldl (fun x b => f b x) x = bs.getLast?.elim x (f · x) := by
  induction bs generalizing x with
  | nil => rfl
  | cons b bs ih =>
    rw [List.foldl_cons, ih, List.getLast?_cons]
    cases bs.getLast? with
    | none => rfl
    | some last => exact hf b last x

theorem process?_foldl {α : Type} {key : α → ProcessId} {f : α → Process → Process}
    (hf : ∀ a q, (f a q).pid = q.pid) (as : List α) (k : Kernel) (pid : ProcessId) :
    (as.foldl (fun k a => k.changeProcess (key a) (f a)) k).process? pid =
      (k.process? pid).map fun q =>
        (as.filter fun a => key a = pid).foldl (fun q a => f a q) q := by
  induction as generalizing k with
  | nil => exact Option.map_id'.symm
  | cons a as ih =>
    rw [List.foldl_cons, ih, process?_changeProcess (hf a), Option.map_map]
    congr 1
    funext q
    by_cases h : pid = key a
    · rw [Function.comp_apply, if_pos h, List.filter_cons_of_pos (by simp [h]), List.foldl_cons]
    · rw [Function.comp_apply, if_neg h, List.filter_cons_of_neg (by simpa using Ne.symm h)]

def lastFor (ended : List Completion) (pid : ProcessId) : Option Completion :=
  (ended.filter fun c => c.pid = pid).getLast?

theorem process?_wakeAll (ended : List Completion) (k : Kernel) (pid : ProcessId) :
    (wakeAll ended k).process? pid =
      (k.process? pid).map fun q => (lastFor ended pid).elim q fun c => q.wake c.result := by
  refine (process?_foldl (f := fun c : Completion => Process.wake c.result) (fun _ _ => rfl)
    ended k pid).trans ?_
  congr 1
  funext q
  exact foldl_overwrites (f := fun c : Completion => Process.wake c.result) (fun _ _ _ => rfl) _ q

theorem process?_parkAll (k : Kernel) (pid : ProcessId) : k.parkAll.process? pid =
    (k.process? pid).map fun q => ((k.queue.entries.filter fun e => e.pid = pid).getLast?).elim q
      fun e => q.waitFor (reasonFor e.read.state) := by
  refine (process?_foldl (f := fun e : QueueEntry => Process.waitFor (reasonFor e.read.state))
    (fun _ _ => rfl) k.queue.entries k pid).trans ?_
  congr 1
  funext q
  exact foldl_overwrites (f := fun e : QueueEntry => Process.waitFor (reasonFor e.read.state))
    (fun _ _ _ => rfl) _ q

theorem isRunnable_waitFor (p : Process) (state : ReadState) :
    (p.waitFor (reasonFor state)).isRunnable = false := by
  cases state <;> rfl

/-! The invariant -/

/-- A process waits exactly while a read of it is queued. -/
def Parks (k : Kernel) : Prop :=
  ∀ pid p, k.process? pid = some p →
    (p.isRunnable = true ↔ ∀ e ∈ k.queue.entries, e.pid ≠ pid)

theorem Parks.congr (h : Parks k) (hq : k'.queue = k.queue)
    (hp : ∀ pid p', k'.process? pid = some p' →
      ∃ p, k.process? pid = some p ∧ p'.isRunnable = p.isRunnable) : Parks k' := by
  intro pid p' hp'
  obtain ⟨p, hold, hrun⟩ := hp pid p' hp'
  rw [hrun, hq]
  exact h pid p hold

theorem Parks.withUser (h : Parks k) (p : Process) (w : Mmu) : Parks (k.withUser p w) := by
  refine h.congr rfl fun pid p' hp' => ?_
  rw [process?_withUser, Option.map_eq_some_iff] at hp'
  obtain ⟨q, hq, rfl⟩ := hp'
  refine ⟨q, hq, ?_⟩
  split <;> rfl

theorem Inv.queued_alive (h : Inv managed gap k) {e : QueueEntry} (he : e ∈ k.queue.entries) :
    ∃ p, k.process? e.pid = some p := by
  obtain ⟨u, hu, -⟩ := (h.steady.sits e he).backed
  obtain ⟨p, hp, -⟩ := users_eq_some hu
  exact ⟨p, hp⟩

theorem Spawned.parks {m' : Machine} (h : Inv managed gap k) (hp : Parks k)
    (hs : Spawned k k' p m') : Parks k' := by
  have hqueue : k'.queue = k.queue := by rw [hs.kernel]
  intro pid q hq
  rw [hs.process? h] at hq
  split at hq
  · next hpid =>
    obtain rfl := Option.some.inj hq
    rw [hpid, hqueue, hs.process]
    refine iff_of_true rfl fun e he heq => ?_
    obtain ⟨q, hq⟩ := h.queued_alive he
    rw [heq, process?_none_of_le h (Nat.le_refl _)] at hq
    cases hq
  · rw [hqueue]
    exact hp pid q hq

theorem Parks.queueing {r : Read} {w : Mmu} (h : Parks k) : Parks (k.queueing pid r w) := by
  intro other q hq
  rw [process?_queueing, Option.map_eq_some_iff] at hq
  obtain ⟨p, hp, rfl⟩ := hq
  rw [queueing_entries]
  split
  · next he =>
    refine iff_of_false Bool.false_ne_true fun hnone => ?_
    exact hnone ⟨pid, r⟩ (by simp) he.symm
  · next hne =>
    refine (h other p hp).trans ⟨fun hall e he => ?_, fun hall e he => ?_⟩
    · rcases List.mem_append.mp he with hold | hnew
      · exact hall e hold
      · rw [List.mem_singleton.mp hnew]
        exact Ne.symm hne
    · exact hall e (List.mem_append_left _ he)

theorem Ended.parks {v : Mmu} (h : Parks k) (he : Ended managed gap k k' p v) : Parks k' := by
  intro other q hq
  rw [process?_removed he.processes rfl] at hq
  split at hq
  · cases hq
  · next hne =>
    rw [h other q hq, he.entries]
    refine ⟨fun hall e hmem => hall e (List.mem_of_mem_filter hmem), fun hall e hmem hpid => ?_⟩
    exact hall e (List.mem_filter.mpr ⟨hmem, by simp [hpid, hne]⟩) hpid

theorem Polled.process? {ended : List Completion} (h : Polled managed gap k k' ended)
    (pid : ProcessId) : (wakeAll ended k').parkAll.process? pid =
      (k.process? pid).map fun q =>
        ((k'.queue.entries.filter fun e => e.pid = pid).getLast?).elim
          ((lastFor ended pid).elim q fun c => q.wake c.result)
          fun e => ((lastFor ended pid).elim q fun c => q.wake c.result).waitFor
            (reasonFor e.read.state) := by
  have hold : k'.process? pid = k.process? pid := by
    rw [Kernel.process?, h.processes, Kernel.process?]
  rw [process?_parkAll, (wakeAll_reschedules ended k').queue, process?_wakeAll, hold,
    Option.map_map]
  rfl

theorem Polled.parks {ended : List Completion} (hp : Parks k)
    (h : Polled managed gap k k' ended) : Parks (wakeAll ended k').parkAll := by
  have hqueue : (wakeAll ended k').parkAll.queue = k'.queue :=
    (wakeAndPark_reschedules ended k').queue
  intro pid q' hq'
  rw [h.process?, Option.map_eq_some_iff] at hq'
  obtain ⟨q, hq, rfl⟩ := hq'
  rw [hqueue]
  cases hleft : (k'.queue.entries.filter fun e => e.pid = pid).getLast? with
  | some e =>
    have hmem := List.mem_of_getLast? hleft
    rw [List.mem_filter, decide_eq_true_eq] at hmem
    exact iff_of_false (by simp [isRunnable_waitFor]) fun hall => hall e hmem.1 hmem.2
  | none =>
    have hnone : ∀ e ∈ k'.queue.entries, e.pid ≠ pid := by
      rw [List.getLast?_eq_none_iff, List.filter_eq_nil_iff] at hleft
      simpa using hleft
    refine iff_of_true ?_ hnone
    cases hlast : lastFor ended pid with
    | some c => rfl
    | none =>
      -- without a completion no read of the process was queued before either
      refine (hp pid q hq).mpr fun e he hpid => ?_
      rcases h.passed.kept_or_ended e he with ⟨e', he', hsame⟩ | ⟨c, hc, hsame⟩
      · exact hnone e' he' (hsame.trans hpid)
      · rw [lastFor, List.getLast?_eq_none_iff, List.filter_eq_nil_iff] at hlast
        exact hlast c hc (decide_eq_true (hsame.trans hpid))

theorem Outcome.parks {op : Operation} {answered : Bool} (h : Inv managed gap k) (hp : Parks k)
    (ho : Outcome managed gap k op answered k') : Parks k' := by
  induction ho with
  | refused => exact hp
  | deviceMapped => exact hp
  | spawned hs => exact hs.parks h hp
  | mapped => exact hp.withUser _ _
  | mapUndone => exact hp.withUser _ _
  | unmapped => exact hp.withUser _ _
  | queued => exact hp.queueing
  | lendUndone => exact hp
  | ended _ he => exact he.parks hp
  | ticked ht => exact ht.parks hp
  | called _ _ _ _ ih => exact ih

/-! One read at a time -/

namespace Operation

def isDirect : Operation → Bool
  | map .. | unmap .. | read .. | exit .. => true
  | mapDevice .. | spawn | syscall .. | tick .. => false

end Operation

def OneEach (k : Kernel) : Prop :=
  (k.queue.entries.map (·.pid)).Nodup

theorem OneEach.pendingFor_le (h : OneEach k) (pid : ProcessId) :
    k.queue.pendingFor pid ≤ 1 := by
  have hcount : k.queue.pendingFor pid = (k.queue.entries.map (·.pid)).count pid := by
    rw [List.count_eq_countP, List.countP_map]
    exact List.countP_congr fun e _ => by simp
  rw [hcount]
  exact List.nodup_iff_count_le_one.mp h pid

theorem OneEach.queueing {r : Read} {w : Mmu} (h : OneEach k)
    (hnone : ∀ e ∈ k.queue.entries, e.pid ≠ pid) : OneEach (k.queueing pid r w) := by
  rw [OneEach, queueing_entries, List.map_append, List.nodup_append]
  refine ⟨h, by simp, ?_⟩
  intro a ha b hb
  obtain ⟨e, he, rfl⟩ := List.mem_map.mp ha
  obtain rfl : b = pid := by simpa using hb
  exact hnone e he

theorem Outcome.oneEach {op : Operation} {answered : Bool} (hp : Parks k) (h1 : OneEach k)
    (ho : Outcome managed gap k op answered k')
    (hop : op.isDirect = false ∨ ∃ p pid, op.issuer = some pid ∧ k.process? pid = some p ∧
      p.isRunnable = true) : OneEach k' := by
  induction ho with
  | refused => exact h1
  | deviceMapped => exact h1
  | spawned hs =>
    rw [OneEach, hs.kernel]
    exact h1
  | mapped => exact h1
  | mapUndone => exact h1
  | unmapped => exact h1
  | queued =>
    rcases hop with hop | ⟨p, pid, hissuer, hq, hrun⟩
    · cases hop
    · cases hissuer
      exact h1.queueing ((hp _ p hq).mp hrun)
  | lendUndone => exact h1
  | ended _ he =>
    rw [OneEach, he.entries]
    exact h1.sublist (List.filter_sublist.map _)
  | @ticked _ _ _ _ completions k₁ ht =>
    have hqueue : (wakeAll completions k₁).parkAll.queue = k₁.queue :=
      (wakeAndPark_reschedules completions k₁).queue
    rw [OneEach, hqueue]
    exact h1.sublist ht.passed.pids_sublist
  | called _ hq hrun _ ih =>
    exact ih (.inr ⟨_, _, Operation.issuer_ofSyscall .., hq, hrun⟩)

/-! Whole runs -/

variable {map : BootMap} {kernelEnd : PhysicalAddress} {m : Machine} {t t' : Traced Kernel}

theorem parks_ofBoot (m : Machine) (space : AddressSpace) : Parks (ofBoot m space) :=
  nofun

theorem Reachable.parks (h : Reachable map kernelEnd m t) : Parks t.state :=
  h.preserved (fun _ => parks_ofBoot _ _) fun hinv hp ho => ho.parks hinv hp

theorem pendingFor_eq_zero (q : ReadQueue) (pid : ProcessId) :
    q.pendingFor pid = 0 ↔ ∀ e ∈ q.entries, e.pid ≠ pid := by
  simp [ReadQueue.pendingFor, List.countP_eq_zero]

/-- All along a run a live process is runnable exactly when no read of it is queued, and
every queued read belongs to a live process. Where processes enter the kernel by numbered
calls alone, none has more than one read queued. -/
theorem parked_while_reading {ops : List Operation} (h : run map kernelEnd m ops = some t) :
    (∀ p ∈ t.state.processes, p.isRunnable = true ↔ t.state.queue.pendingFor p.pid = 0) ∧
      (∀ e ∈ t.state.queue.entries, ∃ p ∈ t.state.processes, p.pid = e.pid) ∧
      ((∀ op ∈ ops, op.isDirect = false) → ∀ pid, t.state.queue.pendingFor pid ≤ 1) := by
  have ht := reachable_iff.mpr ⟨ops, h⟩
  have hinv := ht.inv.1
  refine ⟨?_, ?_, ?_⟩
  · intro p hp
    rw [pendingFor_eq_zero]
    exact ht.parks p.pid p (process?_of_mem hinv.pids hp)
  · intro e he
    obtain ⟨p, hp⟩ := hinv.queued_alive he
    exact ⟨p, mem_of_process? hp⟩
  · intro hops pid
    obtain ⟨t₀, hboot, hone, hrun⟩ := booted_of_run h
    refine OneEach.pendingFor_le ?_ pid
    have hboth := preserved_along (P := fun k => Parks k ∧ OneEach k)
      (fun hinv hop hk ho => ⟨ho.parks hinv hk.1, ho.oneEach hk.1 hk.2 (.inl hop)⟩) hops hboot
      ⟨hboot.parks, by rw [OneEach, hone]; exact List.nodup_nil⟩ hrun
    exact hboth.2

def numberedReading : List Operation :=
  [.spawn, .spawn, .syscall ⟨1⟩ 90 0 4096 1, .syscall ⟨1⟩ 3 3 268435460 10]

theorem parked_while_reading_numbered :
    ∃ t, run nineFrames (.ofBits 0) ⟨.arena 10, .empty⟩ numberedReading = some t ∧
      t.state.queue.pendingFor ⟨1⟩ = 1 ∧ t.state.processes.length = 2 ∧
      (∀ p ∈ t.state.processes, p.isRunnable = true ↔ t.state.queue.pendingFor p.pid = 0) ∧
      (∀ e ∈ t.state.queue.entries, ∃ p ∈ t.state.processes, p.pid = e.pid) ∧
      ∀ pid, t.state.queue.pendingFor pid ≤ 1 := by
  have hrun : ((run nineFrames (.ofBits 0) ⟨.arena 10, .empty⟩ numberedReading).any fun t =>
      t.state.queue.pendingFor ⟨1⟩ = 1 ∧ t.state.processes.length = 2) = true := by
    simp only [numberedReading, run, List.foldlM_cons, List.foldlM_nil, after, Operation.perform,
      spawn, Process.create_eq]
    decide +kernel
  obtain ⟨t, ht, h⟩ := (Option.any_eq_true _ _).mp hrun
  obtain ⟨hpending, hlive⟩ := of_decide_eq_true h
  obtain ⟨hparked, halive, hone⟩ := parked_while_reading ht
  refine ⟨t, ht, hpending, hlive, hparked, halive, hone ?_⟩
  intro op hop
  simp only [numberedReading, List.mem_cons, List.not_mem_nil, or_false] at hop
  rcases hop with rfl | rfl | rfl | rfl <;> rfl

end PagedKernel.Kernel
