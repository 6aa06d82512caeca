import PagedKernel.Proofs.Kernel.QueueChange

/-! How reads are delivered. A read that was accepted stays queued, with its slot open,
until one tick reports it or its process ends; from then on its slot keeps the result. -/

namespace PagedKernel.Kernel

variable {map : BootMap} {kernelEnd : PhysicalAddress} {m : Machine} {t u v : Traced Kernel}
  {k k' : Kernel} {op : Operation} {pid : ProcessId} {fd : Fd} {slot : SlotId}
  {result : ReadResult} {answered : Bool} {managed : Frame → Prop} {gap : Prop}

structure Ticked (k : Kernel) (ended : List Completion) (k' : Kernel) : Prop where
  /-- The completions report the reads that left the queue, one each and in their order. -/
  reports : List.Forall₂ (ReadQueue.Reported k'.slots)
    (ReadQueue.departed k.queue.entries k'.queue.entries) ended
  /-- The last completion for a process is its last result; without one, that is left. -/
  lastRead : ∀ pid, (k'.process? pid).map (·.lastRead) = (k.process? pid).map fun p =>
    (lastFor ended pid).elim p.lastRead fun c => some c.result

section Tick

variable {δ : Type} {device : Device δ} {state : δ} {asyncReads : Bool} {ended : List Completion}

theorem tick_of_perform (h : (Operation.tick device state asyncReads).perform t = .ok () u) :
    ∃ ended, Op.zoom (Operation.devicePart state) (tick device asyncReads) t = .ok ended u := by
  obtain ⟨ended, w, hrun, hpure⟩ := Op.bind_eq_ok.mp h
  cases hpure
  exact ⟨ended, hrun⟩

theorem Reachable.tick (ht : Reachable map kernelEnd m t)
    (h : Op.zoom (Operation.devicePart state) (tick device asyncReads) t = .ok ended u) :
    Ticked t.state ended u.state ∧ ∃ v, Passed t.state u.state ended v := by
  have hmeets : Op.Meets (Gap map kernelEnd m)
      (Op.zoom (Operation.devicePart state) (Kernel.tick device asyncReads)) t.state
      fun ended k' => ∃ k₁, Polled (Managed map kernelEnd) (Gap map kernelEnd m) t.state k₁ ended ∧
        k' = (wakeAll ended k₁).parkAll :=
    Op.zoom_meets (Operation.devicePart state) (tick_meets ht.inv.1 device state asyncReads)
  obtain ⟨⟨k₁, hpolled, hu⟩, -⟩ := Op.Meets.post hmeets h
  have hsame := wakeAndPark_reschedules ended k₁
  have hpass : Passed t.state u.state ended k₁.mmu := by
    rw [hu, Passed, hsame.queue, hsame.slots]
    exact hpolled.passed
  refine ⟨⟨hpass.reports ht.inv.1, fun pid => ?_⟩, k₁.mmu, hpass⟩
  rw [hu, hpolled.process?, Option.map_map]
  congr 1
  funext p
  rw [Function.comp_apply]
  cases (k₁.queue.entries.filter fun e => e.pid = pid).getLast? <;>
    cases lastFor ended pid <;> rfl

end Tick

/-! One read -/

/-- A read was accepted: `sys_read` answered a slot, or the numbered call for it zero. -/
inductive Accepted (t : Traced Kernel) :
    Operation → SlotId → ProcessId → Fd → Traced Kernel → Prop
  | direct {pid : ProcessId} {fd : Fd} {buffer : VirtualAddress} {count : Nat} {slot : SlotId}
    {u : Traced Kernel} : (Kernel.read pid fd buffer count).run t = .ok (.ok slot) u →
      Accepted t (.read pid fd buffer count) slot pid fd u
  | numbered {pid : ProcessId} {arg0 arg1 arg2 : UInt32} {u : Traced Kernel} :
    Kernel.syscall pid (Syscall.number .read) arg0 arg1 arg2 t = .ok 0 u →
      Accepted t (.syscall pid (Syscall.number .read) arg0 arg1 arg2) t.state.slots.cells.size pid
        ⟨arg0.toNat⟩ u

/-- The operation that ended a read: a tick that reports it with one completion, or the end
of its process. -/
inductive Delivered (t u : Traced Kernel) (slot : SlotId) (pid : ProcessId) (fd : Fd) :
    ReadResult → Operation → Prop
  | reported {δ : Type} {device : Device δ} {state : δ} {asyncReads : Bool}
    {ended : List Completion} {result : ReadResult} :
    Op.zoom (Operation.devicePart state) (tick device asyncReads) t = .ok ended u →
      ReadQueue.completionsFor (ReadQueue.departed t.state.queue.entries u.state.queue.entries)
        ended slot = [⟨pid, fd, result⟩] →
          Delivered t u slot pid fd result (.tick device state asyncReads)
  | cancelled : (Operation.exit pid).attempt t = .ok true u →
    Delivered t u slot pid fd (.error .cancelled) (.exit pid)

/-- A property of the kernel holds in every state that a sequence of operations goes through. -/
def Throughout (P : Kernel → Prop) : Traced Kernel → List Operation → Prop
  | t, [] => P t.state
  | t, op :: ops => P t.state ∧ ∀ u, after t op = some u → Throughout P u ops

/-- A queued read stays queued, or one operation delivers it, after which its slot keeps the
result and is not read into again. -/
def DeliveredOnce (slot : SlotId) (pid : ProcessId) (fd : Fd) (t : Traced Kernel)
    (ops : List Operation) : Prop :=
  Throughout (Awaits slot pid fd) t ops ∨ ∃ before op rest u v result,
    ops = before ++ op :: rest ∧ Throughout (Awaits slot pid fd) t before ∧
      before.foldlM after t = some u ∧ after u op = some v ∧
      Delivered u v slot pid fd result op ∧ Throughout (Settled slot result) v rest

theorem Outcome.accepted (h : Outcome managed gap k op answered k') (ha : answered = true)
    (hreads : op.reads? = some (pid, fd)) :
    ∃ r : Read, r.fd = fd ∧ r.slot = k.slots.cells.size ∧
      k'.queue.entries = k.queue.entries ++ [⟨pid, r⟩] := by
  induction h with
  | queued _ _ hr =>
    obtain ⟨rfl, rfl⟩ := Prod.mk.inj (Option.some.inj hreads)
    exact ⟨_, hr.fd, hr.slot, rfl⟩
  | called hcall _ _ _ ih => exact ih ha (Operation.reads?_ofSyscall hcall ▸ hreads)
  | refused => cases ha
  | lendUndone => cases ha
  | mapUndone => cases ha
  | deviceMapped => cases hreads
  | spawned => cases hreads
  | mapped => cases hreads
  | unmapped => cases hreads
  | ended => cases hreads
  | ticked => cases hreads

theorem Accepted.attempt (h : Accepted t op slot pid fd u) : op.attempt t = .ok true u := by
  cases h with
  | direct h => exact Op.bind_eq_ok.mpr ⟨_, u, h, rfl⟩
  | numbered h => exact Op.bind_eq_ok.mpr ⟨_, u, h, rfl⟩

theorem Accepted.reads? (h : Accepted t op slot pid fd u) : op.reads? = some (pid, fd) := by
  cases h with
  | direct => rfl
  | numbered => rfl

theorem Accepted.slot_eq (ht : Reachable map kernelEnd m t) (h : Accepted t op slot pid fd u) :
    slot = t.state.slots.cells.size := by
  cases h with
  | direct h => exact (Op.Meets.post (read_outcome ht.inv.1 _ _ _ _) h).1.1
  | numbered => rfl

theorem Accepted.awaits (ht : Reachable map kernelEnd m t) (h : Accepted t op slot pid fd u) :
    t.state.readers slot = [] ∧ Awaits slot pid fd u.state := by
  have hfresh : t.state.readers slot = [] :=
    ht.inv.1.readers_of_le (Nat.le_of_eq (h.slot_eq ht).symm)
  obtain ⟨r, hfd, hslot, hq⟩ := (ht.attempt h.attempt).accepted rfl h.reads?
  have hinv := (ht.step op (perform_of_attempt h.attempt)).inv.1
  refine ⟨hfresh, hinv.awaits ?_⟩
  rw [readers, hq, readers_append, if_pos (hslot.trans (h.slot_eq ht).symm), hfd]
  exact List.mem_append_right _ (List.mem_singleton_self _)

/-- An operation leaves a queued read queued, or delivers it. -/
theorem Awaits.step (ht : Reachable map kernelEnd m t) (h : Awaits slot pid fd t.state)
    (hop : op.perform t = .ok () u) : Awaits slot pid fd u.state ∨
      ∃ result, Delivered t u slot pid fd result op ∧ Settled slot result u.state := by
  obtain ⟨answered, hattempt⟩ := attempt_of_perform hop
  have hinv := ht.inv.1
  have hinv' := (ht.step op hop).inv.1
  have hmem : (pid, fd) ∈ t.state.readers slot := h.queued ▸ List.mem_singleton_self _
  obtain ⟨e, he, hslot, hreader⟩ := ReadQueue.mem_readers.mp hmem
  have hcases : ∀ {ended v}, Passed t.state u.state ended v →
      u.state.readers slot = [] ∨ (pid, fd) ∈ u.state.readers slot := by
    intro ended v hp
    have hsub : (u.state.readers slot).Sublist (t.state.readers slot) := hp.readers_sublist
    rw [h.queued] at hsub
    refine (List.sublist_singleton.mp hsub).imp_right fun hs => ?_
    rw [hs]
    exact List.mem_singleton_self _
  cases (ht.attempt hattempt).queueChange ht.parks with
  | still hq =>
    refine .inl (hinv'.awaits ?_)
    rw [readers, hq]
    exact hmem
  | queued _ _ hq =>
    refine .inl (hinv'.awaits ?_)
    rw [readers, hq, readers_append]
    exact List.mem_append_left _ hmem
  | @cancelled _ _ other ended _ hexit hpass hresults hq =>
    rcases hcases hpass with hgone | hstays
    · obtain ⟨result, hsettled, hreported⟩ := hpass.settled hinv h.queued hgone
      have hpid : e.pid = other := by
        refine Classical.byContradiction fun hne => ?_
        have hkept : e ∈ u.state.queue.entries := by
          rw [hq]
          exact List.mem_filter.mpr ⟨he, by simpa using hne⟩
        exact ReadQueue.readers_eq_nil.mp hgone (List.mem_map.mpr ⟨e, hkept, hslot⟩)
      obtain ⟨rfl, rfl⟩ := hexit e he hpid
      obtain rfl : e.pid = pid := congrArg Prod.fst hreader
      subst hpid
      have hlisted : Completion.mk e.pid fd result ∈ ended :=
        ReadQueue.mem_of_completionsFor (hreported ▸ List.mem_singleton_self _)
      obtain rfl : result = .error .cancelled := hresults _ hlisted
      exact .inr ⟨_, .cancelled hattempt, hsettled⟩
    · exact .inl (hinv'.awaits hstays)
  | ticked hpass =>
    rcases hcases hpass with hgone | hstays
    · obtain ⟨ended, hrun⟩ := tick_of_perform hop
      obtain ⟨-, v, hpass'⟩ := ht.tick hrun
      obtain ⟨result, hsettled, hreported⟩ := hpass'.settled hinv h.queued hgone
      exact .inr ⟨result, .reported hrun hreported, hsettled⟩
    · exact .inl (hinv'.awaits hstays)

theorem Settled.throughout (ht : Reachable map kernelEnd m t)
    (h : Settled slot result t.state) (ops : List Operation) :
    Throughout (Settled slot result) t ops := by
  induction ops generalizing t with
  | nil => exact h
  | cons op ops ih =>
    refine ⟨h, fun u hu => ?_⟩
    have hop := after_eq_some.mp hu
    obtain ⟨_, ho⟩ := ht.outcome hop
    exact ih (ht.step op hop) ((ho.queueChange ht.parks).settled h)

theorem Awaits.delivered_once (ht : Reachable map kernelEnd m t)
    (h : Awaits slot pid fd t.state) {ops : List Operation} (hrun : ops.foldlM after t = some v) :
    DeliveredOnce slot pid fd t ops := by
  induction ops generalizing t with
  | nil => exact .inl h
  | cons op ops ih =>
    rw [List.foldlM_cons, Option.bind_eq_bind, Option.bind_eq_some_iff] at hrun
    obtain ⟨u, hu, hrun⟩ := hrun
    have hop := after_eq_some.mp hu
    have hu' := ht.step op hop
    have hcons : ∀ {P : Kernel → Prop} {rest}, P t.state → Throughout P u rest →
        Throughout P t (op :: rest) := by
      intro P rest hP hrest
      refine ⟨hP, fun w hw => ?_⟩
      rw [hu] at hw
      exact Option.some.inj hw ▸ hrest
    rcases h.step ht hop with hawaits | ⟨result, hdelivered, hsettled⟩
    · rcases ih hu' hawaits hrun with hall | ⟨before, op', rest, x, y, result, rfl, hbefore, hx, hy,
        hdelivered, hsettled⟩
      · exact .inl (hcons h hall)
      · refine .inr ⟨op :: before, op', rest, x, y, result, rfl, hcons h hbefore, ?_, hy,
          hdelivered, hsettled⟩
        rw [List.foldlM_cons, hu]
        exact hx
    · exact .inr ⟨[], op, ops, t, u, result, rfl, h, rfl, hu, hdelivered,
        hsettled.throughout hu' ops⟩

/-! Where queued reads come from -/

/-- The read into a slot was queued by an operation of its process, for its descriptor, and
has been queued ever since. -/
def Issued (map : BootMap) (kernelEnd : PhysicalAddress) (m : Machine) (slot : SlotId)
    (pid : ProcessId) (fd : Fd) (t : Traced Kernel) : Prop :=
  ∃ (x y : Traced Kernel) (op : Operation) (rest : List Operation),
    Reachable map kernelEnd m x ∧ x.state.readers slot = [] ∧ op.reads? = some (pid, fd) ∧
      after x op = some y ∧ rest.foldlM after y = some t ∧ Throughout (Awaits slot pid fd) y rest

theorem Throughout.concat {P : Kernel → Prop} {ops : List Operation} (h : Throughout P t ops)
    (hrun : ops.foldlM after t = some u) (hop : after u op = some v) (hP : P v.state) :
    Throughout P t (ops ++ [op]) := by
  induction ops generalizing t with
  | nil =>
    cases hrun
    refine ⟨h, fun w hw => ?_⟩
    rw [hop] at hw
    exact Option.some.inj hw ▸ hP
  | cons first ops ih =>
    rw [List.foldlM_cons, Option.bind_eq_bind, Option.bind_eq_some_iff] at hrun
    obtain ⟨x, hx, hrun⟩ := hrun
    refine ⟨h.1, fun w hw => ?_⟩
    rw [hx] at hw
    exact ih (h.2 w (hw ▸ hx)) (Option.some.inj hw ▸ hrun)

theorem Reachable.issued (ht : Reachable map kernelEnd m t)
    (hmem : (pid, fd) ∈ t.state.readers slot) : Issued map kernelEnd m slot pid fd t := by
  induction ht with
  | boot => cases hmem
  | @step t t' op ht hop ih =>
    obtain ⟨_, ho⟩ := ht.outcome hop
    have hawaits := (ht.step op hop).inv.1.awaits hmem
    rcases (ho.queueChange ht.parks).readers_of_mem ht.inv.1 hmem with hold | ⟨hreads, hfresh⟩
    · obtain ⟨x, y, first, rest, hx, hfresh, hreads, hy, hrest, hall⟩ := ih hold
      refine ⟨x, y, first, rest ++ [op], hx, hfresh, hreads, hy, ?_,
        hall.concat hrest (after_eq_some.mpr hop) hawaits⟩
      rw [List.foldlM_append, hrest]
      simpa [after_eq_some] using hop
    · exact ⟨t, t', op, [], ht, hfresh, hreads, after_eq_some.mpr hop, rfl, hawaits⟩

/-! Process numbers -/

/-- A number that was given out, of a process that has ended. -/
def Retired (pid : ProcessId) (k : Kernel) : Prop :=
  pid.number < k.nextPid ∧ k.process? pid = none

theorem Outcome.unused (h : Inv managed gap k) (ho : Outcome managed gap k op answered k')
    (hr : Retired pid k) : k'.process? pid = none := by
  have huser : ∀ (p : Process) (w : Mmu), (k.withUser p w).process? pid = none := by
    intro p w
    rw [process?_withUser, hr.2]
    rfl
  induction ho with
  | refused => exact hr.2
  | deviceMapped => exact hr.2
  | spawned hs =>
    rw [hs.process? h, if_neg, hr.2]
    rintro rfl
    have hlt := hr.1
    rw [hs.process] at hlt
    exact Nat.lt_irrefl _ hlt
  | mapped => exact huser _ _
  | mapUndone => exact huser _ _
  | unmapped => exact huser _ _
  | queued =>
    rw [process?_queueing, hr.2]
    rfl
  | lendUndone => exact hr.2
  | ended _ he => rw [process?_removed he.processes rfl, hr.2, ite_self]
  | ticked ht =>
    rw [ht.process?, hr.2]
    rfl
  | called _ _ _ _ ih => exact ih

theorem Outcome.retired (h : Inv managed gap k) (ho : Outcome managed gap k op answered k')
    (hr : Retired pid k) : Retired pid k' := by
  refine ⟨?_, ho.unused h hr⟩
  rw [ho.nextPid]
  exact Nat.lt_add_right _ hr.1

theorem Reachable.never_reused (ht : Reachable map kernelEnd m t) {p : Process}
    (hp : p ∈ t.state.processes) {ops ops' : List Operation}
    (hu : ops.foldlM after t = some u) (hended : u.state.process? p.pid = none)
    (hv : ops'.foldlM after u = some v) : v.state.process? p.pid = none := by
  have hlt : p.pid.number < u.state.nextPid :=
    preserved_along (P := fun k => p.pid.number < k.nextPid) (A := fun _ => True)
      (fun _ _ hlt ho => ho.nextPid ▸ Nat.lt_add_right _ hlt) (fun _ _ => trivial) ht
      (ht.inv.1.below p hp) hu
  have hretired : Retired p.pid v.state :=
    preserved_along (P := Retired p.pid) (A := fun _ => True)
      (fun hinv _ hr ho => ho.retired hinv hr) (fun _ _ => trivial) (reachable_of_after ops ht hu)
      ⟨hlt, hended⟩ hv
  exact hretired.2

/-- Over any run, every accepted read is delivered once, to the process that issued it:
it is queued for a slot of its own, which is open until one tick reports the read with one
completion, or the end of its process cancels it, and which keeps the result from then on.
Every queued read was issued by its process for its descriptor, every tick reports the reads
that left the queue and sets the last results by its completions, and no process number is
used twice. -/
theorem reads_delivered_once (ht : Reachable map kernelEnd m t) :
    (∀ op slot pid fd u, Accepted t op slot pid fd u → t.state.readers slot = [] ∧
      ∀ (ops : List Operation) v, ops.foldlM after u = some v →
        DeliveredOnce slot pid fd u ops) ∧
    (∀ e ∈ t.state.queue.entries, Issued map kernelEnd m e.read.slot e.pid e.read.fd t) ∧
    (∀ (δ : Type) (device : Device δ) (state : δ) (asyncReads : Bool) (ended : List Completion)
      (u : Traced Kernel),
      Op.zoom (Operation.devicePart state) (tick device asyncReads) t = .ok ended u →
        Ticked t.state ended u.state) ∧
    (∀ p ∈ t.state.processes, ∀ (ops : List Operation) u, ops.foldlM after t = some u →
      u.state.process? p.pid = none → ∀ (ops' : List Operation) v,
        ops'.foldlM after u = some v → v.state.process? p.pid = none) := by
  refine ⟨?_, ?_, ?_, ?_⟩
  · intro op slot pid fd u h
    obtain ⟨hfresh, hawaits⟩ := h.awaits ht
    have hu := ht.step op (perform_of_attempt h.attempt)
    exact ⟨hfresh, fun ops v hrun => hawaits.delivered_once hu hrun⟩
  · intro e he
    exact ht.issued (ReadQueue.mem_readers.mpr ⟨e, he, rfl, rfl⟩)
  · intro δ device state asyncReads ended u h
    exact (ht.tick h).1
  · intro p hp ops u hu hended ops' v hv
    exact ht.never_reused hp hu hended hv

def promptDevice : Device Unit where
  busy _ s := (false, s)
  issue _ _ count s := (.ok (.immediate count), s)
  bytesReady _ s := (.ok 0, s)
  seek _ _ s := (.ok (), s)
  syncRead _ _ count s := (.ok count, s)

theorem reads_delivered_once_prompt : ∃ t u v,
    run nineFrames (.ofBits 0) ⟨.arena 10, .empty⟩
        [.spawn, .spawn, .map ⟨1⟩ (.ofBits 0) 4096 true] = some t ∧
      Accepted t (.read ⟨1⟩ ⟨3⟩ (.ofBits 268435460) 10) 0 ⟨1⟩ ⟨3⟩ u ∧
      [.tick promptDevice () true].foldlM after u = some v ∧
      (v.state.slots.get? 0).any (·.isOk) = true ∧ t.state.readers 0 = [] ∧
      DeliveredOnce 0 ⟨1⟩ ⟨3⟩ u [.tick promptDevice () true] := by
  have hrun : ((run nineFrames (.ofBits 0) ⟨.arena 10, .empty⟩
      [.spawn, .spawn, .map ⟨1⟩ (.ofBits 0) 4096 true]).any fun t =>
        match (read ⟨1⟩ ⟨3⟩ (.ofBits 268435460) 10).run t with
        | .ok (.ok slot) u => decide (slot = 0) &&
          ([.tick promptDevice () true].foldlM after u).any fun v =>
            (v.state.slots.get? 0).any (·.isOk)
        | .ok (.error _) _ | .error _ _ => false) = true := by
    simp only [run, List.foldlM_cons, List.foldlM_nil, after, Operation.perform, spawn,
      Process.create_eq]
    decide +kernel
  obtain ⟨t, ht, h⟩ := (Option.any_eq_true _ _).mp hrun
  split at h
  · next slot u hread =>
    obtain ⟨hslot, hv⟩ := Bool.and_eq_true_iff.mp h
    obtain rfl := of_decide_eq_true hslot
    obtain ⟨v, hv, hresult⟩ := (Option.any_eq_true _ _).mp hv
    have haccepted : Accepted t (.read ⟨1⟩ ⟨3⟩ (.ofBits 268435460) 10) 0 ⟨1⟩ ⟨3⟩ u :=
      .direct hread
    obtain ⟨hfresh, honce⟩ :=
      (reads_delivered_once (reachable_iff.mpr ⟨_, ht⟩)).1 _ _ _ _ _ haccepted
    exact ⟨t, u, v, ht, haccepted, hv, hresult, hfresh, honce _ v hv⟩
  · cases h
  · cases h

end PagedKernel.Kernel
