import PagedKernel.Proofs.Kernel.Outcome

/-! Every outcome of an operation keeps the invariant. An operation for a process spares
the others, and one for none shelters them all. -/

namespace PagedKernel.Kernel

variable {k k' k'' : Kernel} {p : Process} {pid : ProcessId} {managed : Frame → Prop} {gap : Prop}

theorem process?_addProcess {m : Machine} (hn : k.process? p.pid = none) (other : ProcessId) :
    process? { k with
        machine := m, processes := k.processes ++ [p], nextPid := k.nextPid + 1 } other =
      if other = p.pid then some p else k.process? other := by
  simp only [process?, List.find?_append, List.find?_singleton]
  by_cases he : other = p.pid
  · subst he
    rw [process?] at hn
    simp [hn]
  · simp [he, Ne.symm he]

theorem Spawned.pid_eq {m' : Machine} (hs : Spawned k k' p m') : p.pid = ⟨k.nextPid⟩ :=
  congrArg Process.pid hs.process

theorem Spawned.fresh {m' : Machine} (h : Inv managed gap k) (hs : Spawned k k' p m') :
    k.process? p.pid = none :=
  process?_none_of_le h (by rw [hs.pid_eq])

theorem Spawned.process? {m' : Machine} (h : Inv managed gap k) (hs : Spawned k k' p m')
    (other : ProcessId) :
    k'.process? other = if other = p.pid then some p else k.process? other := by
  rw [hs.kernel]
  exact process?_addProcess (hs.fresh h) other

theorem Spawned.users {m' : Machine} (h : Inv managed gap k) (hs : Spawned k k' p m') :
    k.users p.pid = none ∧ k'.users = Function.update k.users p.pid (some p.space) := by
  refine ⟨by rw [Kernel.users, hs.fresh h, Option.map_none], ?_⟩
  funext other
  rw [Kernel.users, hs.process? h]
  by_cases he : other = p.pid
  · subst he
    rw [if_pos rfl, Function.update_self, Option.map_some]
  · rw [if_neg he, Function.update_of_ne he, Kernel.users]

theorem Spawned.keeps {m' : Machine} (h : Inv managed gap k) (hs : Spawned k k' p m') :
    Inv managed gap k' ∧ Shelters k k' := by
  have hpid := hs.pid_eq
  obtain ⟨hnone, husers⟩ := hs.users h
  have hspared := h.steady.userCreated hnone hs.created
  have hother : ∀ {other u}, k.users other = some u → other ≠ p.pid := by
    rintro _ u hu rfl
    rw [hnone] at hu
    cases hu
  refine ⟨⟨?_, ?_, ?_⟩, ?_, ?_⟩
  · rw [husers, hs.kernel]
    exact hspared.steady
  · rw [hs.kernel]
    dsimp only
    rw [List.map_append, List.nodup_append]
    refine ⟨h.pids, by simp, ?_⟩
    intro a ha b hb
    obtain ⟨q, hq, rfl⟩ := List.mem_map.mp ha
    obtain rfl : b = p.pid := by simpa using hb
    have hlt := h.below q hq
    intro he
    rw [he, hpid] at hlt
    exact Nat.lt_irrefl _ hlt
  · rw [hs.kernel]
    intro q hq
    dsimp only at hq ⊢
    rcases List.mem_append.mp hq with hq | hq
    · exact Nat.lt_succ_of_lt (h.below q hq)
    · rw [List.mem_singleton.mp hq, hpid]
      exact Nat.lt_succ_self _
  · intro other u hu
    rw [husers, Function.update_of_ne (hother hu), hu]
  · intro other u hu
    rw [hs.kernel]
    exact hspared.others other u (hother hu) hu

theorem not_borrowed (h : Inv managed gap k) {va : VirtualAddress} {length : Nat}
    (hb : k.queue.borrows pid va length = false) (h0 : length ≠ 0) :
    ∀ e ∈ k.queue.entries, e.pid = pid → ∀ loan, e.read.loan = some loan → ∀ i < loan.pages,
      ¬ (va.pageNumber ≤ e.read.userBuffer.pageNumber + i ∧ e.read.userBuffer.pageNumber + i <
        va.pageNumber + pagesSpanning (length + va.offset.toNat)) := by
  intro e he hpid loan hl i hi
  have hnot : e.read.borrows va length = false := by
    rw [ReadQueue.borrows, List.any_eq_false] at hb
    have hany := hb e he
    rw [Bool.and_eq_true, not_and, Bool.not_eq_true] at hany
    exact hany (decide_eq_true hpid)
  exact ((h.steady.sits e he).fits hl).not_borrowed hl hnot h0 hi

theorem process?_removed {ps : List Process} (hps : k'.processes = ps.filter fun q => q.pid ≠ pid)
    (hk : k.processes = ps) (other : ProcessId) :
    k'.process? other = if other = pid then none else k.process? other := by
  simp only [process?, hps, hk, List.find?_filter]
  split
  · next he =>
    subst he
    rw [List.find?_eq_none]
    intro q _
    simp
  · next hne =>
    congr 1
    funext q
    by_cases hq : q.pid = other
    · simp [hq, hne]
    · simp [hq]

theorem Ended.users {v : Mmu} (he : Ended managed gap k k' p v) :
    k'.users = Function.update k.users p.pid none := by
  funext other
  rw [Kernel.users, process?_removed he.processes rfl]
  by_cases ho : other = p.pid
  · subst ho
    rw [if_pos rfl, Function.update_self, Option.map_none]
  · rw [if_neg ho, Function.update_of_ne ho, Kernel.users]

theorem Ended.untouched {v : Mmu} (he : Ended managed gap k k' p v) (s : AddressSpace) :
    Untouched v.machine k'.machine s :=
  fun _ _ _ => by rw [he.freed.ram]

theorem Ended.keeps {v : Mmu} (h : Inv managed gap k) (hp : k.process? p.pid = some p)
    (he : Ended managed gap k k' p v) : Inv managed gap k' ∧ Spares p.pid k k' := by
  have hprocess := process?_removed he.processes rfl
  have husers := he.users
  have hgone : ∀ e ∈ k'.queue.entries, e.pid ≠ p.pid := by
    intro e hmem
    rw [he.entries, List.mem_filter] at hmem
    simpa using hmem.2
  have hspared := he.serving.1.userReleased (users_of_process? hp) he.freed hgone
  refine ⟨⟨?_, ?_, ?_⟩, ?_, ?_, ?_⟩
  · rw [husers, mmu, he.space]
    exact hspared.steady
  · rw [he.processes]
    exact h.pids.sublist (List.filter_sublist.map _)
  · intro q hq
    rw [he.processes] at hq
    rw [he.nextPid]
    exact h.below q (List.mem_of_mem_filter hq)
  · intro other hne
    rw [hprocess, if_neg hne]
  · intro other hne
    rw [he.entries, List.filter_filter]
    congr 1
    funext e
    by_cases ho : e.pid = other
    · simp [ho, hne]
    · simp [ho]
  · exact fun other u hne hu =>
      (he.serving.2 other u hu).trans (hspared.others other u hne hu)

/-! Waking and parking -/

/-- The kernels differ in what processes wait for and read last, at most. -/
structure Reschedules (k k' : Kernel) : Prop where
  mmu : k'.mmu = k.mmu
  slots : k'.slots = k.slots
  queue : k'.queue = k.queue
  nextPid : k'.nextPid = k.nextPid
  users : k'.users = k.users
  pids : k'.processes.map (·.pid) = k.processes.map (·.pid)

theorem Reschedules.refl (k : Kernel) : Reschedules k k :=
  ⟨rfl, rfl, rfl, rfl, rfl, rfl⟩

theorem Reschedules.trans (h : Reschedules k k') (h' : Reschedules k' k'') : Reschedules k k'' :=
  ⟨h'.mmu.trans h.mmu, h'.slots.trans h.slots, h'.queue.trans h.queue,
    h'.nextPid.trans h.nextPid, h'.users.trans h.users, h'.pids.trans h.pids⟩

theorem changeProcess_reschedules (k : Kernel) (pid : ProcessId) {f : Process → Process}
    (hf : ∀ q : Process, (f q).pid = q.pid) (hs : ∀ q : Process, (f q).space = q.space) :
    Reschedules k (k.changeProcess pid f) :=
  ⟨rfl, rfl, rfl, rfl, users_changeProcess hf hs, pids_changeProcess hf⟩

theorem foldl_reschedules {α : Type} {step : Kernel → α → Kernel}
    (hs : ∀ k a, Reschedules k (step k a)) (as : List α) (k : Kernel) :
    Reschedules k (as.foldl step k) := by
  induction as generalizing k with
  | nil => exact .refl k
  | cons a as ih => exact (hs k a).trans (ih _)

theorem wakeAll_reschedules (ended : List Completion) (k : Kernel) :
    Reschedules k (wakeAll ended k) := by
  refine foldl_reschedules ?_ ended k
  exact fun k c => changeProcess_reschedules k c.pid (fun _ => rfl) fun _ => rfl

theorem parkAll_reschedules (k : Kernel) : Reschedules k k.parkAll := by
  refine foldl_reschedules ?_ _ k
  exact fun k e => changeProcess_reschedules k e.pid (fun _ => rfl) fun _ => rfl

theorem wakeAndPark_reschedules (ended : List Completion) (k : Kernel) :
    Reschedules k (wakeAll ended k).parkAll :=
  (wakeAll_reschedules ended k).trans (parkAll_reschedules _)

theorem Polled.users {ended : List Completion} (hp : Polled managed gap k k' ended) :
    k'.users = k.users := by
  funext pid
  rw [Kernel.users, process?, hp.processes, Kernel.users, process?]

theorem Polled.keeps {ended : List Completion} (h : Inv managed gap k)
    (hp : Polled managed gap k k' ended) :
    Inv managed gap (wakeAll ended k').parkAll ∧ Shelters k (wakeAll ended k').parkAll := by
  have hsame := wakeAndPark_reschedules ended k'
  have husers := hp.users
  refine ⟨h.steps ?_ (hsame.pids.trans (by rw [hp.processes])) (hsame.nextPid.trans hp.nextPid),
    ?_, ?_⟩
  · rw [hsame.mmu, hsame.users, hsame.slots, hsame.queue, husers]
    exact hp.serving.1
  · intro pid u hu
    rw [hsame.users, husers]
    exact hu
  · intro pid u hu
    have hm : ((wakeAll ended k').parkAll).machine = k'.machine := congrArg Mmu.machine hsame.mmu
    rw [hm]
    exact hp.serving.2 pid u hu

theorem users_queueing (k : Kernel) (pid : ProcessId) (r : Read) (w : Mmu) :
    (k.queueing pid r w).users = k.users :=
  users_changeProcess (k := (k.withMmu w).withRead pid r) (f := Process.waitFor .fileReading)
    (fun _ => rfl) fun _ => rfl

theorem queueing_entries (k : Kernel) (pid : ProcessId) (r : Read) (w : Mmu) :
    (k.queueing pid r w).queue.entries = k.queue.entries ++ [⟨pid, r⟩] := rfl

theorem process?_queueing (k : Kernel) (pid : ProcessId) (r : Read) (w : Mmu)
    (other : ProcessId) : (k.queueing pid r w).process? other = (k.process? other).map fun q =>
      if other = pid then q.waitFor .fileReading else q :=
  process?_changeProcess (f := Process.waitFor .fileReading) fun _ => rfl

theorem queueing_keeps {fd : Fd} {buffer : VirtualAddress} {r : Read} {w : Mmu}
    (h : Inv managed gap k) (hp : k.process? pid = some p)
    (hr : r.Prepared ⟨k.machine, p.space⟩ k.mmu w) (hs : r.Starts fd buffer k.slots.cells.size) :
    Inv managed gap (k.queueing pid r w) ∧ Spares pid k (k.queueing pid r w) := by
  have hserving := h.steady.prepared (users_of_process? hp) hr hs
  have hinv : Inv managed gap ((k.withMmu w).withRead pid r) := h.steps hserving.1 rfl rfl
  refine ⟨hinv.changeProcess (fun _ => rfl) fun _ => rfl, ?_, ?_, ?_⟩
  · exact fun other hne => process?_changeProcess_of_ne (fun _ => rfl) hne
  · intro other hne
    rw [queueing_entries, List.filter_append]
    simp [Ne.symm hne]
  · exact fun other u _ hu => hserving.2 other u hu

/-! All outcomes -/

def Operation.Leaves (op : Operation) (k k' : Kernel) : Prop :=
  match op.issuer with
  | some pid => Spares pid k k'
  | none => Shelters k k'

theorem Operation.Leaves.refl (op : Operation) (k : Kernel) : op.Leaves k k := by
  unfold Leaves
  cases op.issuer with
  | none => exact .refl k
  | some pid => exact .refl pid k

theorem Outcome.keeps {op : Operation} {answered : Bool} (h : Inv managed gap k)
    (ho : Outcome managed gap k op answered k') : Inv managed gap k' ∧ op.Leaves k k' := by
  induction ho with
  | refused op => exact ⟨h, .refl op k⟩
  | deviceMapped hw =>
    obtain ⟨hinv, hshelters, -⟩ := h.withMmu (h.steady.identified hw)
    exact ⟨hinv, hshelters⟩
  | spawned hs => exact hs.keeps h
  | mapped hp hw => exact h.withUser hp (h.steady.userGrown (users_of_process? hp) hw.grown)
  | mapUndone hp hw => exact h.withUser hp (h.steady.userRestored (users_of_process? hp) hw)
  | unmapped hp hb h0 _ hw =>
    exact h.withUser hp
      (h.steady.userUnassigned (users_of_process? hp) hw (not_borrowed h hb h0))
  | queued hp hr hs => exact queueing_keeps h hp hr hs
  | lendUndone hw =>
    obtain ⟨hinv, -, hspares⟩ := h.withMmu (h.steady.restored hw)
    exact ⟨hinv, hspares _⟩
  | ended hp he =>
    obtain ⟨-, rfl⟩ := mem_of_process? hp
    exact he.keeps h hp
  | ticked hp => exact hp.keeps h
  | called _ _ _ _ ih =>
    refine ⟨ih.1, ?_⟩
    have hleaves := ih.2
    rw [Operation.Leaves, Operation.issuer_ofSyscall] at hleaves
    exact hleaves

theorem Outcome.nextPid {op : Operation} {answered : Bool}
    (ho : Outcome managed gap k op answered k') :
    k'.nextPid = k.nextPid + if op.isSpawn && answered then 1 else 0 := by
  induction ho with
  | refused op => rw [Bool.and_false, if_neg Bool.false_ne_true, Nat.add_zero]
  | deviceMapped | mapped | mapUndone | unmapped | queued | lendUndone => rfl
  | spawned hs => exact congrArg Kernel.nextPid hs.kernel
  | ended _ he => exact he.nextPid
  | @ticked _ _ _ _ completions k₁ hp =>
    exact (wakeAndPark_reschedules completions k₁).nextPid.trans hp.nextPid
  | called _ _ _ _ ih => rwa [Operation.isSpawn_ofSyscall] at ih

end PagedKernel.Kernel
