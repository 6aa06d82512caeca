import PagedKernel.Proofs.Kernel.Calls

/-! The operations of a kernel, and everything that can come of one. What holds of the
kernel all along a run is shown by the cases of `Outcome`. -/

namespace PagedKernel

theorem Syscall.number_of_ofNumber {number : Nat} {call : Syscall}
    (h : Syscall.ofNumber number = .ok call) : number = call.number := by
  unfold Syscall.ofNumber at h
  split at h <;> cases h <;> rfl

namespace Kernel

/-- An operation of the kernel. A tick may bring any device, in any state. -/
inductive Operation : Type 1 where
  | mapDevice (base : PhysicalAddress) (size : Nat)
  | spawn
  | map (pid : ProcessId) (hint : VirtualAddress) (length : Nat) (writable : Bool)
  | unmap (pid : ProcessId) (va : VirtualAddress) (length : Nat)
  | read (pid : ProcessId) (fd : Fd) (buffer : VirtualAddress) (count : Nat)
  | exit (pid : ProcessId)
  | syscall (pid : ProcessId) (number : Nat) (arg0 arg1 arg2 : UInt32)
  | tick {δ : Type} (device : Device δ) (state : δ) (asyncReads : Bool)

namespace Operation

def issuer : Operation → Option ProcessId
  | mapDevice .. | spawn | tick .. => none
  | map pid .. | unmap pid .. | read pid .. | exit pid | syscall pid .. => some pid

def isSpawn : Operation → Bool
  | spawn => true
  | _ => false

def devicePart {δ : Type} (state : δ) : Focus Kernel (Kernel × δ) :=
  ⟨fun k => ((k, state), fun t => t.1)⟩

def perform : Operation → Op Kernel Unit
  | mapDevice base size => do
    let _ ← (Kernel.mapDevice base size).run
  | spawn => do
    let _ ← Kernel.spawn.run
  | map pid hint length writable => do
    let _ ← (Kernel.map pid hint length writable).run
  | unmap pid va length => do
    let _ ← (Kernel.unmap pid va length).run
  | read pid fd buffer count => do
    let _ ← (Kernel.read pid fd buffer count).run
  | exit pid => do
    let _ ← (Kernel.exit pid).run
  | syscall pid number arg0 arg1 arg2 => do
    let _ ← Kernel.syscall pid number arg0 arg1 arg2
  | tick device state asyncReads => do
    let _ ← Op.zoom (devicePart state) (Kernel.tick device asyncReads)

/-- Carries an operation out, and tells whether it was answered or refused. A numbered
call is refused by the error word. -/
def attempt : Operation → Op Kernel Bool
  | mapDevice base size => do
    let answer ← (Kernel.mapDevice base size).run
    return answer.isOk
  | spawn => do
    let answer ← Kernel.spawn.run
    return answer.isOk
  | map pid hint length writable => do
    let answer ← (Kernel.map pid hint length writable).run
    return answer.isOk
  | unmap pid va length => do
    let answer ← (Kernel.unmap pid va length).run
    return answer.isOk
  | read pid fd buffer count => do
    let answer ← (Kernel.read pid fd buffer count).run
    return answer.isOk
  | exit pid => do
    let answer ← (Kernel.exit pid).run
    return answer.isOk
  | syscall pid number arg0 arg1 arg2 => do
    let answer ← Kernel.syscall pid number arg0 arg1 arg2
    return answer != syscallError
  | tick device state asyncReads => do
    let _ ← Op.zoom (devicePart state) (Kernel.tick device asyncReads)
    return true

theorem perform_eq (op : Operation) : op.perform = op.attempt >>= fun _ => pure () := by
  cases op <;> simp only [perform, attempt, bind_assoc, pure_bind]

def ofSyscall (pid : ProcessId) (arg0 arg1 arg2 : UInt32) : Syscall → Operation
  | .exit => exit pid
  | .read => read pid ⟨arg0.toNat⟩ (.ofBits arg1) arg2.toNat
  | .map => map pid (.ofBits arg0) arg1.toNat (arg2 != 0)
  | .unmap => unmap pid (.ofBits arg0) arg1.toNat

theorem issuer_ofSyscall (pid : ProcessId) (arg0 arg1 arg2 : UInt32) (call : Syscall) :
    (ofSyscall pid arg0 arg1 arg2 call).issuer = some pid := by
  cases call <;> rfl

theorem isSpawn_ofSyscall (pid : ProcessId) (arg0 arg1 arg2 : UInt32) (call : Syscall) :
    (ofSyscall pid arg0 arg1 arg2 call).isSpawn = false := by
  cases call <;> rfl

end Operation

variable {k k' : Kernel} {managed : Frame → Prop} {gap : Prop}

/-- What an operation makes of the kernel, in each way it can be answered (`true`) or
refused (`false`). -/
inductive Outcome (managed : Frame → Prop) (gap : Prop) (k : Kernel) :
    Operation → Bool → Kernel → Prop
  | refused (op : Operation) : Outcome managed gap k op false k
  | deviceMapped {base : PhysicalAddress} {size : Nat} {answered : Bool} {w : Mmu} :
    Mmu.Identified (DevicePage base size) true k.mmu w →
      Outcome managed gap k (.mapDevice base size) answered (k.withMmu w)
  | spawned {k' : Kernel} {p : Process} {m' : Machine} :
    Spawned k k' p m' → Outcome managed gap k .spawn true k'
  | mapped {pid : ProcessId} {hint base : VirtualAddress} {length : Nat} {writable : Bool}
    {p : Process} {w : Mmu} : k.process? pid = some p →
      Mmu.Mapped writable true ⟨k.machine, p.space⟩ w (hint.max MemoryLayout.userBaseAddress)
        base length → Outcome managed gap k (.map pid hint length writable) true (k.withUser p w)
  | mapUndone {pid : ProcessId} {hint : VirtualAddress} {length : Nat} {writable : Bool}
    {p : Process} {w : Mmu} : k.process? pid = some p →
      Mmu.Restored true ⟨k.machine, p.space⟩ w →
        Outcome managed gap k (.map pid hint length writable) false (k.withUser p w)
  | unmapped {pid : ProcessId} {va : VirtualAddress} {length : Nat} {p : Process} {w : Mmu} :
    k.process? pid = some p → k.queue.borrows pid va length = false → length ≠ 0 →
      length + va.offset.toNat ≤ maxLength →
        Mmu.Unassigned ⟨k.machine, p.space⟩ w va.pageNumber
          (pagesSpanning (length + va.offset.toNat)) →
            Outcome managed gap k (.unmap pid va length) true (k.withUser p w)
  | queued {pid : ProcessId} {fd : Fd} {buffer : VirtualAddress} {count : Nat} {p : Process}
    {r : Read} {w : Mmu} : k.process? pid = some p → r.Prepared ⟨k.machine, p.space⟩ k.mmu w →
      r.Starts fd buffer k.slots.cells.size →
        Outcome managed gap k (.read pid fd buffer count) true (k.queueing pid r w)
  | lendUndone {pid : ProcessId} {fd : Fd} {buffer : VirtualAddress} {count : Nat} {w : Mmu} :
    Mmu.Restored false k.mmu w →
      Outcome managed gap k (.read pid fd buffer count) false (k.withMmu w)
  | ended {pid : ProcessId} {k' : Kernel} {p : Process} {v : Mmu} : k.process? pid = some p →
      Ended managed gap k k' p v → Outcome managed gap k (.exit pid) true k'
  | ticked {δ : Type} {device : Device δ} {state : δ} {asyncReads : Bool}
    {completions : List Completion} {k₁ : Kernel} : Polled managed gap k k₁ completions →
      Outcome managed gap k (.tick device state asyncReads) true
        ((wakeAll completions k₁).parkAll)
  | called {pid : ProcessId} {number : Nat} {arg0 arg1 arg2 : UInt32} {call : Syscall}
    {answered : Bool} {p : Process} {k' : Kernel} : Syscall.ofNumber number = .ok call →
      k.process? pid = some p → p.isRunnable = true →
        Outcome managed gap k (.ofSyscall pid arg0 arg1 arg2 call) answered k' →
          Outcome managed gap k (.syscall pid number arg0 arg1 arg2) answered k'

theorem mapDevice_outcome (h : Inv managed gap k) (base : PhysicalAddress) (size : Nat) :
    (mapDevice base size).Meets gap k
      (fun _ k' => Outcome managed gap k (.mapDevice base size) true k')
      fun _ k' => Outcome managed gap k (.mapDevice base size) false k' := by
  refine (mapDevice_meets h base size).mono ?_ ?_
  · rintro n k' ⟨w, hw, rfl⟩
    exact .deviceMapped hw
  · rintro e k' ⟨w, hw, rfl⟩
    exact .deviceMapped hw

theorem spawn_outcome (h : Inv managed gap k) : spawn.Meets (gap ∨ ¬ k.PidsLeft) k
    (fun _ k' => Outcome managed gap k .spawn true k')
    fun _ k' => Outcome managed gap k .spawn false k' := by
  refine (spawn_meets h).mono ?_ ?_
  · rintro pid k' ⟨p, m', hs, -⟩
    exact .spawned hs
  · rintro e k' ⟨-, rfl⟩
    exact .refused _

theorem map_outcome (h : Inv managed gap k) (pid : ProcessId) (hint : VirtualAddress)
    (length : Nat) (writable : Bool) : (map pid hint length writable).Meets gap k
      (fun base k' => base.offset = 0 ∧
        Outcome managed gap k (.map pid hint length writable) true k')
      fun _ k' => Outcome managed gap k (.map pid hint length writable) false k' := by
  refine (map_meets h pid hint length writable).mono ?_ ?_
  · rintro base k' ⟨p, w, hp, rfl, hw⟩
    exact ⟨hw.aligned, .mapped hp hw⟩
  · rintro e k' (⟨rfl, -⟩ | ⟨p, w, cause, hp, rfl, hw, -⟩)
    · exact .refused _
    · exact .mapUndone hp hw

theorem unmap_outcome (h : Inv managed gap k) (pid : ProcessId) (va : VirtualAddress)
    (length : Nat) : (unmap pid va length).Meets gap k
      (fun _ k' => Outcome managed gap k (.unmap pid va length) true k')
      fun _ k' => Outcome managed gap k (.unmap pid va length) false k' := by
  refine (unmap_meets h pid va length).mono ?_ ?_
  · rintro - k' ⟨p, w, hp, rfl, hb, h0, hmax, hw⟩
    exact .unmapped hp hb h0 hmax hw
  · rintro e k' rfl
    exact .refused _

theorem read_outcome (h : Inv managed gap k) (pid : ProcessId) (fd : Fd)
    (buffer : VirtualAddress) (count : Nat) : (read pid fd buffer count).Meets gap k
      (fun slot k' => slot = k.slots.cells.size ∧
        Outcome managed gap k (.read pid fd buffer count) true k')
      fun _ k' => Outcome managed gap k (.read pid fd buffer count) false k' := by
  refine (read_meets h pid fd buffer count).mono ?_ ?_
  · rintro slot k' ⟨hslot, p, r, w, hp, hprepared, hr, rfl⟩
    exact ⟨hslot, .queued hp hprepared hr⟩
  · rintro e k' ⟨w, hw, rfl⟩
    exact .lendUndone hw

theorem exit_outcome (h : Inv managed gap k) (pid : ProcessId) :
    (exit pid).Meets gap k (fun _ k' => Outcome managed gap k (.exit pid) true k')
      fun _ k' => Outcome managed gap k (.exit pid) false k' := by
  refine (exit_meets h pid).mono ?_ ?_
  · rintro - k' ⟨p, v, hp, he⟩
    exact .ended hp he
  · rintro e k' rfl
    exact .refused _

theorem tick_outcome {δ : Type} (h : Inv managed gap k) (device : Device δ) (state : δ)
    (asyncReads : Bool) : (tick device asyncReads).Meets gap (k, state)
      fun _ t => Outcome managed gap k (.tick device state asyncReads) true t.1 := by
  refine (tick_meets h device state asyncReads).mono ?_
  rintro ended t ⟨k₁, hpolled, ht⟩
  rw [ht]
  exact .ticked hpolled

theorem bits_ne_syscallError {va : VirtualAddress} (h : va.offset = 0) :
    va.bits ≠ syscallError := by
  intro he
  have hoff := va.offset_toNat
  rw [h, MemoryAddress.toNat, he] at hoff
  exact absurd hoff (by decide)

theorem dispatch_outcome (h : Inv managed gap k) (pid : ProcessId) (number : Nat)
    (arg0 arg1 arg2 : UInt32) : (dispatch pid number arg0 arg1 arg2).Meets gap k
      (fun value k' => value ≠ syscallError ∧
        Outcome managed gap k (.syscall pid number arg0 arg1 arg2) true k')
      fun _ k' => Outcome managed gap k (.syscall pid number arg0 arg1 arg2) false k' := by
  unfold dispatch
  cases hcall : Syscall.ofNumber number with
  | error e => exact Call.throw_bind_meets (.refused _)
  | ok call =>
    refine requireProcess_bind_meets ?_ fun _ => .refused _
    intro p hp
    cases hrun : p.isRunnable with
    | false =>
      simp only [Bool.false_eq_true, if_false]
      exact Call.throw_bind_meets (.refused _)
    | true =>
      simp only [if_true]
      have hcalled : ∀ answered k',
          Outcome managed gap k (.ofSyscall pid arg0 arg1 arg2 call) answered k' →
            Outcome managed gap k (.syscall pid number arg0 arg1 arg2) answered k' :=
        fun _ _ hk => .called hcall hp hrun hk
      have hzero : (0 : UInt32) ≠ syscallError := by decide
      cases call with
      | exit =>
        refine Call.Meets.bind ((exit_outcome h pid).mono (fun _ _ => id) fun _ => hcalled _) ?_
        exact fun _ k' hk => Call.pure_meets ⟨hzero, hcalled _ k' hk⟩
      | read =>
        refine Call.Meets.bind ((read_outcome h pid ⟨arg0.toNat⟩ (.ofBits arg1) arg2.toNat).mono
          (fun _ _ => id) fun _ => hcalled _) ?_
        exact fun _ k' hk => Call.pure_meets ⟨hzero, hcalled _ k' hk.2⟩
      | map =>
        refine Call.Meets.bind ((map_outcome h pid (.ofBits arg0) arg1.toNat (arg2 != 0)).mono
          (fun _ _ => id) fun _ => hcalled _) ?_
        exact fun _ k' hk => Call.pure_meets ⟨bits_ne_syscallError hk.1, hcalled _ k' hk.2⟩
      | unmap =>
        refine Call.Meets.bind ((unmap_outcome h pid (.ofBits arg0) arg1.toNat).mono
          (fun _ _ => id) fun _ => hcalled _) ?_
        exact fun _ k' hk => Call.pure_meets ⟨hzero, hcalled _ k' hk⟩

theorem syscall_outcome (h : Inv managed gap k) (pid : ProcessId) (number : Nat)
    (arg0 arg1 arg2 : UInt32) : (syscall pid number arg0 arg1 arg2).Meets gap k
      fun value k' => Outcome managed gap k (.syscall pid number arg0 arg1 arg2)
        (value != syscallError) k' := by
  have hdispatch : Op.Meets gap (dispatch pid number arg0 arg1 arg2).run k fun answer k' =>
      (∀ value, answer = .ok value → value ≠ syscallError) ∧
        Outcome managed gap k (.syscall pid number arg0 arg1 arg2) answer.isOk k' := by
    refine Op.run_meets ((dispatch_outcome h pid number arg0 arg1 arg2).mono ?_ ?_)
    · rintro value k' ⟨hne, hk⟩
      exact ⟨fun _ he => Except.ok.inj he ▸ hne, hk⟩
    · exact fun e k' hk => ⟨nofun, hk⟩
  unfold syscall
  refine (Op.record_gives (by rintro ⟨⟩)).bind (hdispatch.bind ?_)
  rintro answer k' ⟨hne, hk⟩
  cases answer with
  | ok value =>
    refine Op.pure_meets ?_
    rw [bne_iff_ne.mpr (hne value rfl)]
    exact hk
  | error cause => exact (Op.record_gives (by rintro ⟨⟩)).bind (Op.pure_meets hk)

theorem isOk_meets {α : Type} {gap : Prop} {x : Call KernelError Kernel α}
    {post : Bool → Kernel → Prop} (hx : x.Meets gap k (fun _ => post true) fun _ => post false) :
    Op.Meets gap (do let answer ← x.run; return answer.isOk) k post := by
  refine Op.Meets.bind hx fun answer k' hk => ?_
  cases answer with
  | ok a => exact Op.pure_meets hk
  | error e => exact Op.pure_meets hk

theorem isOk_of_run {α : Type} {x : Call KernelError Kernel α} {answer : Except KernelError α}
    {t u : Traced Kernel} (h : x.run t = .ok answer u) :
    (do let answer ← x.run; return answer.isOk : Op Kernel Bool) t = .ok answer.isOk u := by
  rw [Op.bind_eq_ok]
  exact ⟨answer, u, h, rfl⟩

/-- Beside a gap in memory, only a spawn without a process number left can fault. -/
theorem attempt_outcome (h : Inv managed gap k) (op : Operation) :
    op.attempt.Meets (gap ∨ op.isSpawn = true ∧ ¬ k.PidsLeft) k
      fun answered k' => Outcome managed gap k op answered k' := by
  cases op with
  | mapDevice base size =>
    exact Op.Meets.widen (isOk_meets (mapDevice_outcome h base size)) .inl
  | spawn => exact Op.Meets.widen (isOk_meets (spawn_outcome h)) (Or.imp_right (And.intro rfl))
  | map pid hint length writable =>
    exact Op.Meets.widen (isOk_meets ((map_outcome h pid hint length writable).mono
      (fun _ _ hk => hk.2) fun _ _ => id)) .inl
  | unmap pid va length => exact Op.Meets.widen (isOk_meets (unmap_outcome h pid va length)) .inl
  | read pid fd buffer count =>
    exact Op.Meets.widen (isOk_meets ((read_outcome h pid fd buffer count).mono
      (fun _ _ hk => hk.2) fun _ _ => id)) .inl
  | exit pid => exact Op.Meets.widen (isOk_meets (exit_outcome h pid)) .inl
  | syscall pid number arg0 arg1 arg2 =>
    refine Op.Meets.widen (Op.Meets.bind (syscall_outcome h pid number arg0 arg1 arg2) ?_) .inl
    exact fun _ _ hk => Op.pure_meets hk
  | tick device state asyncReads =>
    refine Op.Meets.widen (Op.Meets.bind (Op.zoom_meets (Operation.devicePart state)
      (tick_outcome h device state asyncReads)) ?_) .inl
    exact fun _ _ hk => Op.pure_meets hk

theorem perform_outcome (h : Inv managed gap k) (op : Operation) :
    op.perform.Meets (gap ∨ ¬ k.PidsLeft) k
      fun _ k' => ∃ answered, Outcome managed gap k op answered k' := by
  rw [op.perform_eq]
  refine ((attempt_outcome h op).widen (Or.imp_right And.right)).bind ?_
  exact fun answered _ hk => Op.pure_meets ⟨answered, hk⟩

end Kernel
end PagedKernel
