import PagedKernel.Proofs.Kernel.Scheduling

/-! What an operation does to the queue and the slots. It leaves them alone, queues one
read into a new slot, or passes over the queue once; a slot that holds a result keeps it. -/

namespace PagedKernel.Kernel

variable {k k' : Kernel} {pid : ProcessId} {fd : Fd} {slot : SlotId} {result : ReadResult}
  {managed : Frame → Prop} {gap : Prop} {op : Operation} {answered : Bool}

def readers (k : Kernel) (slot : SlotId) : List (ProcessId × Fd) :=
  ReadQueue.readers k.queue.entries slot

/-- A read of a live process is queued for the slot, once, and the slot is unresolved. -/
structure Awaits (slot : SlotId) (pid : ProcessId) (fd : Fd) (k : Kernel) : Prop where
  queued : k.readers slot = [(pid, fd)]
  unresolved : k.slots.get? slot = none
  alive : ∃ p ∈ k.processes, p.pid = pid

/-- Nothing is queued for the slot any more, and it holds a result. -/
structure Settled (slot : SlotId) (result : ReadResult) (k : Kernel) : Prop where
  left : k.readers slot = []
  value : k.slots.get? slot = some result

/-! Slots and queued reads -/

theorem Inv.slots_nodup (h : Inv managed gap k) :
    (ReadQueue.slotsOf k.queue.entries).Nodup := by
  rw [ReadQueue.slotsOf, List.Nodup, List.pairwise_map]
  exact h.steady.separate.imp fun hs => hs.1

theorem Inv.slot_lt (h : Inv managed gap k) {e : QueueEntry} (he : e ∈ k.queue.entries) :
    e.read.slot < k.slots.cells.size :=
  (Array.getElem?_eq_some_iff.mp (h.steady.sits e he).slot).1

theorem Inv.readers_of_le (h : Inv managed gap k) (hslot : k.slots.cells.size ≤ slot) :
    k.readers slot = [] := by
  rw [readers, ReadQueue.readers_eq_nil]
  rintro hmem
  obtain ⟨e, he, rfl⟩ := List.mem_map.mp hmem
  exact Nat.not_lt.mpr hslot (h.slot_lt he)

theorem Inv.awaits (h : Inv managed gap k) (hmem : (pid, fd) ∈ k.readers slot) :
    Awaits slot pid fd k := by
  obtain ⟨e, he, rfl, hreader⟩ := ReadQueue.mem_readers.mp hmem
  obtain ⟨rfl, rfl⟩ := Prod.mk.inj hreader
  obtain ⟨p, hp⟩ := h.queued_alive he
  exact ⟨ReadQueue.readers_eq_singleton h.slots_nodup hmem,
    Slots.get?_of_open (h.steady.sits e he).slot, p, mem_of_process? hp⟩

theorem readers_append (es : List QueueEntry) (r : Read) (slot : SlotId) :
    ReadQueue.readers (es ++ [⟨pid, r⟩]) slot =
      ReadQueue.readers es slot ++ if r.slot = slot then [(pid, r.fd)] else [] := by
  rw [ReadQueue.readers, ReadQueue.readers, List.filter_append, List.map_append]
  congr 1
  by_cases h : r.slot = slot <;> simp [h]

theorem get?_handOut_of_ne (slots : Slots) (h : slot ≠ slots.cells.size) :
    slots.handOut.2.get? slot = slots.get? slot := by
  simp only [Slots.get?, Slots.handOut, Array.getElem?_push, if_neg h]

theorem lt_of_get? {slots : Slots} (h : slots.get? slot = some result) :
    slot < slots.cells.size := by
  rw [Slots.get?, Option.bind_eq_some_iff] at h
  obtain ⟨cell, hcell, -⟩ := h
  exact (Array.getElem?_eq_some_iff.mp hcell).1

theorem Passed.reports {ended : List Completion} {v : Mmu} (h : Inv managed gap k)
    (hp : Passed k k' ended v) : List.Forall₂ (ReadQueue.Reported k'.slots)
      (ReadQueue.departed k.queue.entries k'.queue.entries) ended :=
  ReadQueue.Pass.reports hp h.slots_nodup

theorem Passed.settled {ended : List Completion} {v : Mmu} (h : Inv managed gap k)
    (hp : Passed k k' ended v) (hq : k.readers slot = [(pid, fd)]) (hleft : k'.readers slot = []) :
    ∃ result, Settled slot result k' ∧ ReadQueue.completionsFor
      (ReadQueue.departed k.queue.entries k'.queue.entries) ended slot = [⟨pid, fd, result⟩] := by
  have hreports := hp.reports h
  have hgone := ReadQueue.readers_eq_nil.mp hleft
  have hdeparted : ReadQueue.readers (ReadQueue.departed k.queue.entries k'.queue.entries) slot =
      [(pid, fd)] := (ReadQueue.readers_departed hgone).trans hq
  have hmem : (pid, fd) ∈ ReadQueue.readers
      (ReadQueue.departed k.queue.entries k'.queue.entries) slot := by
    rw [hdeparted]
    exact List.mem_singleton_self _
  obtain ⟨e, he, rfl, -⟩ := ReadQueue.mem_readers.mp hmem
  obtain ⟨c, -, hc⟩ := ReadQueue.exists_reported hreports he
  refine ⟨c.result, ⟨hleft, hc.value⟩, ?_⟩
  rw [ReadQueue.completionsFor_eq hreports hc.value, hdeparted]
  rfl

/-! What an operation does to the queue -/

def Operation.reads? : Operation → Option (ProcessId × Fd)
  | read pid fd .. => some (pid, fd)
  | syscall pid number arg0 .. =>
    if number = Syscall.number .read then some (pid, ⟨arg0.toNat⟩) else none
  | _ => none

inductive QueueChange (k k' : Kernel) : Operation → Bool → Prop
  | still {op : Operation} {answered : Bool} : k'.queue = k.queue → k'.slots = k.slots →
    QueueChange k k' op answered
  | queued {op : Operation} {pid : ProcessId} {r : Read} : op.reads? = some (pid, r.fd) →
    r.slot = k.slots.cells.size → k'.queue.entries = k.queue.entries ++ [⟨pid, r⟩] →
      k'.slots = k.slots.handOut.2 → QueueChange k k' op true
  | cancelled {op : Operation} {answered : Bool} {pid : ProcessId} {ended : List Completion}
    {v : Mmu} : (∀ e ∈ k.queue.entries, e.pid = pid → op = .exit pid ∧ answered = true) →
      Passed k k' ended v → (∀ c ∈ ended, c.result = .error .cancelled) →
        k'.queue.entries = (k.queue.entries.filter fun e => !decide (e.pid = pid)) →
          QueueChange k k' op answered
  | ticked {δ : Type} {device : Device δ} {state : δ} {asyncReads : Bool}
    {ended : List Completion} {v : Mmu} : Passed k k' ended v →
      QueueChange k k' (.tick device state asyncReads) true

theorem Operation.reads?_ofSyscall {number : Nat} {call : Syscall} {arg0 arg1 arg2 : UInt32}
    (h : Syscall.ofNumber number = .ok call) : (syscall pid number arg0 arg1 arg2).reads? =
      (ofSyscall pid arg0 arg1 arg2 call).reads? := by
  obtain rfl := Syscall.number_of_ofNumber h
  cases call <;> rfl

theorem QueueChange.called {number : Nat} {call : Syscall} {arg0 arg1 arg2 : UInt32}
    (hcall : Syscall.ofNumber number = .ok call) (hidle : ∀ e ∈ k.queue.entries, e.pid ≠ pid)
    (h : QueueChange k k' (.ofSyscall pid arg0 arg1 arg2 call) answered) :
    QueueChange k k' (.syscall pid number arg0 arg1 arg2) answered := by
  generalize hop : Operation.ofSyscall pid arg0 arg1 arg2 call = op at h
  cases h with
  | still hq hs => exact .still hq hs
  | queued hreads hslot hq hs =>
    refine .queued ?_ hslot hq hs
    rw [Operation.reads?_ofSyscall hcall, hop, hreads]
  | cancelled hexit hpass hresults hq =>
    refine .cancelled (fun e he hpid => absurd ?_ (hidle e he)) hpass hresults hq
    have hissuer := congrArg Operation.issuer (hop.trans (hexit e he hpid).1)
    rw [Operation.issuer_ofSyscall] at hissuer
    exact hpid.trans (Option.some.inj hissuer).symm
  | ticked => cases call <;> cases hop

theorem Outcome.queueChange (hp : Parks k) (h : Outcome managed gap k op answered k') :
    QueueChange k k' op answered := by
  induction h with
  | refused => exact .still rfl rfl
  | deviceMapped => exact .still rfl rfl
  | spawned hs => exact .still (by rw [hs.kernel]) (by rw [hs.kernel])
  | mapped => exact .still rfl rfl
  | mapUndone => exact .still rfl rfl
  | unmapped => exact .still rfl rfl
  | queued _ _ hr =>
    refine .queued ?_ hr.slot rfl rfl
    rw [hr.fd]
    rfl
  | lendUndone => exact .still rfl rfl
  | ended hpid he =>
    obtain ⟨-, rfl⟩ := mem_of_process? hpid
    obtain ⟨cancelled, hpass, hresults⟩ := he.passed
    exact .cancelled (fun _ _ _ => ⟨rfl, rfl⟩) hpass hresults he.entries
  | @ticked _ _ _ _ completions k₁ ht =>
    have hsame := wakeAndPark_reschedules completions k₁
    have hpassed : Passed k (wakeAll completions k₁).parkAll completions k₁.mmu := by
      rw [Passed, hsame.queue, hsame.slots]
      exact ht.passed
    exact .ticked hpassed
  | called hcall hq hrun _ ih => exact ih.called hcall ((hp _ _ hq).mp hrun)

theorem QueueChange.settled (h : QueueChange k k' op answered) (hs : Settled slot result k) :
    Settled slot result k' := by
  have hpassed : ∀ {ended v}, Passed k k' ended v → Settled slot result k' := by
    intro ended v hp
    have hsub : (k'.readers slot).Sublist (k.readers slot) := hp.readers_sublist
    refine ⟨List.eq_nil_of_sublist_nil (hs.left ▸ hsub), ?_⟩
    rw [hp.get?_of_notMem (ReadQueue.readers_eq_nil.mp hs.left)]
    exact hs.value
  cases h with
  | still hq hslots =>
    refine ⟨?_, by rw [hslots]; exact hs.value⟩
    rw [readers, hq]
    exact hs.left
  | queued _ hslot hq hslots =>
    have hne : slot ≠ k.slots.cells.size := Nat.ne_of_lt (lt_of_get? hs.value)
    refine ⟨?_, ?_⟩
    · rw [readers, hq, readers_append, if_neg (hslot ▸ hne.symm), List.append_nil]
      exact hs.left
    · rw [hslots, get?_handOut_of_ne _ hne]
      exact hs.value
  | cancelled _ hp => exact hpassed hp
  | ticked hp => exact hpassed hp

theorem QueueChange.readers_of_mem (h : QueueChange k k' op answered) (hinv : Inv managed gap k)
    {reader : ProcessId × Fd} (hmem : reader ∈ k'.readers slot) :
    reader ∈ k.readers slot ∨ op.reads? = some reader ∧ k.readers slot = [] := by
  cases h with
  | still hq =>
    rw [readers, hq] at hmem
    exact .inl hmem
  | queued hreads hslot hq =>
    rw [readers, hq, readers_append] at hmem
    rcases List.mem_append.mp hmem with hold | hnew
    · exact .inl hold
    · split at hnew
      · next hs =>
        rw [List.mem_singleton.mp hnew]
        exact .inr ⟨hreads, hinv.readers_of_le (Nat.le_of_eq (hslot.symm.trans hs))⟩
      · cases hnew
  | cancelled _ hp => exact .inl (hp.readers_sublist.subset hmem)
  | ticked hp => exact .inl (hp.readers_sublist.subset hmem)

end PagedKernel.Kernel
