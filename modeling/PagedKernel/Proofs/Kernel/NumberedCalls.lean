import PagedKernel.Proofs.Kernel.Blind
import PagedKernel.Proofs.Kernel.Run

/-! The numeric entry. A call that is turned away answers the error word and changes nothing;
every other one does what the call behind its number does, and its word tells success from
failure. -/

namespace PagedKernel

/-- The call behind a number, with its words decoded, and the word it answers. -/
def Syscall.direct (pid : ProcessId) (arg0 arg1 arg2 : UInt32) :
    Syscall → Call KernelError Kernel UInt32
  | exit => do
    Kernel.exit pid
    return 0
  | read => do
    let _ ← Kernel.read pid ⟨arg0.toNat⟩ (.ofBits arg1) arg2.toNat
    return 0
  | map => do
    let base ← Kernel.map pid (.ofBits arg0) arg1.toNat (arg2 != 0)
    return base.bits
  | unmap => do
    Kernel.unmap pid (.ofBits arg0) arg1.toNat
    return 0

namespace Kernel

variable {k : Kernel} {pid : ProcessId} {number : Nat} {call : Syscall}

/-- Why a numbered call is turned away. -/
inductive TurnedAway (k : Kernel) (pid : ProcessId) (number : Nat) : Prop
  | unknown (h : ∀ call : Syscall, number ≠ call.number)
  | absent (h : k.process? pid = none)
  | parked {p : Process} (hp : k.process? pid = some p) (h : p.isRunnable = false)

structure Admitted (k : Kernel) (pid : ProcessId) (number : Nat) (call : Syscall) : Prop where
  number_eq : number = call.number
  runnable : ∃ p, k.process? pid = some p ∧ p.isRunnable = true

theorem turnedAway_or_admitted (k : Kernel) (pid : ProcessId) (number : Nat) :
    TurnedAway k pid number ∨ ∃ call, Admitted k pid number call := by
  by_cases hnumber : ∃ call : Syscall, number = call.number
  · obtain ⟨call, hcall⟩ := hnumber
    cases hp : k.process? pid with
    | none => exact .inl (.absent hp)
    | some p =>
      cases hrun : p.isRunnable with
      | false => exact .inl (.parked hp hrun)
      | true => exact .inr ⟨call, hcall, p, hp, hrun⟩
  · exact .inl (.unknown fun call hcall => hnumber ⟨call, hcall⟩)

def word : Except KernelError UInt32 → UInt32
  | .ok value => value
  | .error _ => syscallError

theorem of_word {answer : Except Fault (Except KernelError UInt32)} {value : UInt32}
    (h : answer.map word = .ok value) :
    (∃ cause, answer = .ok (.error cause) ∧ value = syscallError) ∨ answer = .ok (.ok value) := by
  cases answer with
  | error f => cases h
  | ok r =>
    cases r with
    | error cause => exact .inl ⟨cause, rfl, (Except.ok.inj h).symm⟩
    | ok answered =>
      obtain rfl : answered = value := Except.ok.inj h
      exact .inr rfl

/-! ### Behind the entry -/

variable (arg0 arg1 arg2 : UInt32)

theorem dispatch_admitted (h : Admitted k pid number call) (events : Array Event) :
    (dispatch pid number arg0 arg1 arg2).run ⟨k, events⟩ =
      (call.direct pid arg0 arg1 arg2).run ⟨k, events⟩ := by
  obtain ⟨rfl, p, hp, hrun⟩ := h
  unfold dispatch
  rw [Syscall.ofNumber_number]
  refine (Call.run_bind_ok (a := call) rfl).trans ?_
  refine (Call.run_bind_ok (requireProcess_run hp events)).trans ?_
  simp only [hrun, if_true]
  cases call <;> rfl

theorem dispatch_turnedAway (h : TurnedAway k pid number) (events : Array Event) :
    ∃ cause, (dispatch pid number arg0 arg1 arg2).run ⟨k, events⟩ =
      .ok (.error cause) ⟨k, events⟩ := by
  unfold dispatch
  cases hcall : Syscall.ofNumber number with
  | error cause => exact ⟨cause, rfl⟩
  | ok call =>
    cases h with
    | unknown h => exact absurd (Syscall.number_of_ofNumber hcall) (h call)
    | absent h =>
      refine ⟨.noSuchProcess pid, (Call.run_bind_ok (a := call) rfl).trans ?_⟩
      exact Call.run_bind_error (requireProcess_refused h events)
    | @parked p hp h =>
      refine ⟨.notRunnable pid p.waiting, (Call.run_bind_ok (a := call) rfl).trans ?_⟩
      refine (Call.run_bind_ok (requireProcess_run hp events)).trans ?_
      simp only [h, Bool.false_eq_true, if_false]
      rfl

theorem direct_blind (pid : ProcessId) (call : Syscall) :
    (call.direct pid arg0 arg1 arg2).Blind := by
  cases call with
  | exit => exact (exit_blind pid).bind fun _ => Call.pure_blind _
  | read => exact (read_blind pid _ _ _).bind fun _ => Call.pure_blind _
  | map => exact (map_blind pid _ _ _).bind fun _ => Call.pure_blind _
  | unmap => exact (unmap_blind pid _ _).bind fun _ => Call.pure_blind _

theorem syscall_effect (k : Kernel) (pid : ProcessId) (number : Nat) (events : Array Event) :
    ∃ events',
    (syscall pid number arg0 arg1 arg2).effect ⟨k, events⟩ =
      (((dispatch pid number arg0 arg1 arg2).run.effect ⟨k, events'⟩).1.map word,
        ((dispatch pid number arg0 arg1 arg2).run.effect ⟨k, events'⟩).2) := by
  refine ⟨events.push (.kernel (.syscall pid number arg0.toNat arg1.toNat arg2.toNat)), ?_⟩
  refine Op.effect_bind (x := (dispatch pid number arg0 arg1 arg2).run) (fun answer t => ?_) _
  cases answer with
  | ok value => rfl
  | error cause => rfl

theorem syscall_turnedAway (h : TurnedAway k pid number) (events : Array Event) :
    (syscall pid number arg0 arg1 arg2).effect ⟨k, events⟩ = (.ok syscallError, k) := by
  obtain ⟨events', heffect⟩ := syscall_effect arg0 arg1 arg2 k pid number events
  obtain ⟨cause, hrun⟩ := dispatch_turnedAway arg0 arg1 arg2 h events'
  rw [heffect, Op.effect, hrun]
  rfl

theorem syscall_admitted (h : Admitted k pid number call) (events : Array Event) :
    (syscall pid number arg0 arg1 arg2).effect ⟨k, events⟩ =
      (((call.direct pid arg0 arg1 arg2).run.effect ⟨k, events⟩).1.map word,
        ((call.direct pid arg0 arg1 arg2).run.effect ⟨k, events⟩).2) := by
  obtain ⟨events', heffect⟩ := syscall_effect arg0 arg1 arg2 k pid number events
  have hdispatch : (dispatch pid number arg0 arg1 arg2).run.effect ⟨k, events'⟩ =
      (call.direct pid arg0 arg1 arg2).run.effect ⟨k, events'⟩ := by
    rw [Op.effect, Op.effect, dispatch_admitted arg0 arg1 arg2 h]
  have hblind := Call.blind_iff.mp (direct_blind arg0 arg1 arg2 pid call)
  rw [heffect, hdispatch, hblind.effect_eq k events' events]

/-! ### Words -/

theorem direct_ne_syscallError {managed : Frame → Prop} {gap : Prop} (hk : Inv managed gap k)
    (h : Admitted k pid number call) {events : Array Event} {value : UInt32}
    (hvalue : ((call.direct pid arg0 arg1 arg2).run.effect ⟨k, events⟩).1 = .ok (.ok value)) :
    value ≠ syscallError := by
  obtain ⟨u, hrun⟩ := Op.run_of_effect hvalue
  rw [← dispatch_admitted arg0 arg1 arg2 h] at hrun
  exact (Op.Meets.post (dispatch_outcome hk pid number arg0 arg1 arg2) hrun).1.1

theorem direct_value (pid : ProcessId) {t : Traced Kernel} {value : UInt32}
    (hvalue : ((call.direct pid arg0 arg1 arg2).run.effect t).1 = .ok (.ok value)) :
    value = 0 ∨ call = .map ∧ ∃ base,
      ((map pid (.ofBits arg0) arg1.toNat (arg2 != 0)).run.effect t).1 = .ok (.ok base) ∧
        value = base.bits := by
  cases call with
  | exit =>
    obtain ⟨-, -, hzero⟩ := Call.answer_of_effect_map hvalue
    exact .inl hzero
  | read =>
    obtain ⟨-, -, hzero⟩ := Call.answer_of_effect_map hvalue
    exact .inl hzero
  | map =>
    obtain ⟨base, hbase, hbits⟩ := Call.answer_of_effect_map hvalue
    exact .inr ⟨rfl, base, hbase, hbits⟩
  | unmap =>
    obtain ⟨-, -, hzero⟩ := Call.answer_of_effect_map hvalue
    exact .inl hzero

theorem syscall_failed_iff {managed : Frame → Prop} {gap : Prop} (hk : Inv managed gap k)
    (pid : ProcessId) (number : Nat) (events : Array Event) :
    ((syscall pid number arg0 arg1 arg2).effect ⟨k, events⟩).1 = .ok syscallError ↔
      TurnedAway k pid number ∨ ∃ call, Admitted k pid number call ∧
        ∃ cause, ((call.direct pid arg0 arg1 arg2).run.effect ⟨k, events⟩).1 =
          .ok (.error cause) := by
  constructor
  · intro hword
    rcases turnedAway_or_admitted k pid number with h | ⟨call, h⟩
    · exact .inl h
    · rw [syscall_admitted arg0 arg1 arg2 h events] at hword
      rcases of_word hword with ⟨cause, hrefused, -⟩ | hanswered
      · exact .inr ⟨call, h, cause, hrefused⟩
      · exact absurd rfl (direct_ne_syscallError arg0 arg1 arg2 hk h hanswered)
  · rintro (h | ⟨call, h, cause, hrefused⟩)
    · rw [syscall_turnedAway arg0 arg1 arg2 h events]
    · rw [syscall_admitted arg0 arg1 arg2 h events, hrefused]
      rfl

theorem syscall_value (k : Kernel) (pid : ProcessId) (number : Nat) (events : Array Event)
    {value : UInt32}
    (hvalue : ((syscall pid number arg0 arg1 arg2).effect ⟨k, events⟩).1 = .ok value)
    (hne : value ≠ syscallError) :
    value = 0 ∨ number = Syscall.map.number ∧ ∃ base,
      ((map pid (.ofBits arg0) arg1.toNat (arg2 != 0)).run.effect ⟨k, events⟩).1 =
        .ok (.ok base) ∧ value = base.bits := by
  rcases turnedAway_or_admitted k pid number with h | ⟨call, h⟩
  · rw [syscall_turnedAway arg0 arg1 arg2 h events] at hvalue
    exact absurd (Except.ok.inj hvalue).symm hne
  · rw [syscall_admitted arg0 arg1 arg2 h events] at hvalue
    rcases of_word hvalue with ⟨cause, -, herror⟩ | hanswered
    · exact absurd herror hne
    · refine (direct_value arg0 arg1 arg2 pid hanswered).imp_right ?_
      rintro ⟨rfl, hbase⟩
      exact ⟨h.number_eq, hbase⟩

/-- What the numeric entry makes of a call. -/
structure Faithful (gap : Prop) (t : Traced Kernel) (pid : ProcessId) (number : Nat)
    (arg0 arg1 arg2 : UInt32) : Prop where
  turnedAway : TurnedAway t.state pid number →
    (syscall pid number arg0 arg1 arg2).effect t = (.ok syscallError, t.state)
  admitted : ∀ call, Admitted t.state pid number call →
    (syscall pid number arg0 arg1 arg2).effect t =
      (((call.direct pid arg0 arg1 arg2).run.effect t).1.map word,
        ((call.direct pid arg0 arg1 arg2).run.effect t).2)
  failed_iff : ((syscall pid number arg0 arg1 arg2).effect t).1 = .ok syscallError ↔
    TurnedAway t.state pid number ∨ ∃ call, Admitted t.state pid number call ∧
      ∃ cause, ((call.direct pid arg0 arg1 arg2).run.effect t).1 = .ok (.error cause)
  /-- Mapped memory never lies where the error word would be. -/
  mapped : ∀ base, ((map pid (.ofBits arg0) arg1.toNat (arg2 != 0)).run.effect t).1 =
    .ok (.ok base) → base.bits ≠ syscallError
  value : ∀ value, ((syscall pid number arg0 arg1 arg2).effect t).1 = .ok value →
    value ≠ syscallError → value = 0 ∨ number = Syscall.map.number ∧ ∃ base,
      ((map pid (.ofBits arg0) arg1.toNat (arg2 != 0)).run.effect t).1 = .ok (.ok base) ∧
        value = base.bits
  returns : ¬ gap → ∃ value, ((syscall pid number arg0 arg1 arg2).effect t).1 = .ok value

variable {map : BootMap} {kernelEnd : PhysicalAddress} {m : Machine} {t : Traced Kernel}

/-- The numeric entry, at any point of a run: what is turned away changes nothing, every other
call does what the call behind its number does, and the error word is for failures only. -/
theorem numbered_calls_faithful (ht : Reachable map kernelEnd m t) (pid : ProcessId)
    (number : Nat) (arg0 arg1 arg2 : UInt32) :
    Faithful (Gap map kernelEnd m) t pid number arg0 arg1 arg2 where
  turnedAway h := syscall_turnedAway arg0 arg1 arg2 h t.events
  admitted _ h := syscall_admitted arg0 arg1 arg2 h t.events
  failed_iff := syscall_failed_iff arg0 arg1 arg2 ht.inv.1 pid number t.events
  mapped base hbase := by
    obtain ⟨u, hrun⟩ := Op.run_of_effect hbase
    have hmapped := map_outcome ht.inv.1 pid (.ofBits arg0) arg1.toNat (arg2 != 0)
    exact bits_ne_syscallError (Op.Meets.post hmapped hrun).1.1
  value _ hvalue hne := syscall_value arg0 arg1 arg2 t.state pid number t.events hvalue hne
  returns hgap := by
    obtain ⟨k, events⟩ := t
    have hmeets := (syscall_outcome ht.inv.1 pid number arg0 arg1 arg2).widen hgap
    obtain ⟨value, u, hrun, -⟩ := hmeets.exists_answer events
    exact ⟨value, by rw [Op.effect, hrun]⟩

theorem numbered_calls_faithful_reading : ∃ t, reading = some t ∧
    Reachable nineFrames (.ofBits 0) ⟨.arena 10, .empty⟩ t ∧
    Faithful (Gap nineFrames (.ofBits 0) ⟨.arena 10, .empty⟩) t ⟨2⟩ 90 0 4096 1 ∧
    Admitted t.state ⟨2⟩ 90 .map ∧ TurnedAway t.state ⟨1⟩ 90 ∧
    ((syscall ⟨2⟩ 90 0 4096 1).effect t).1 = .ok 268435456 := by
  have hrun : (reading.any fun t => (t.state.process? ⟨1⟩).any (fun p => !p.isRunnable) &&
      (t.state.process? ⟨2⟩).any (·.isRunnable) &&
        decide (((syscall ⟨2⟩ 90 0 4096 1).effect t).1.toOption = some 268435456)) = true := by
    simp only [reading, run, List.foldlM_cons, List.foldlM_nil, after, Operation.perform, spawn,
      Process.create_eq]
    decide +kernel
  obtain ⟨t, ht, h⟩ := (Option.any_eq_true _ _).mp hrun
  rw [Bool.and_eq_true, Bool.and_eq_true] at h
  obtain ⟨⟨hparked, hruns⟩, hvalue⟩ := h
  obtain ⟨p, hp, hwaits⟩ := (Option.any_eq_true _ _).mp hparked
  obtain ⟨q, hq, hrunnable⟩ := (Option.any_eq_true _ _).mp hruns
  have hreach : Reachable nineFrames (.ofBits 0) ⟨.arena 10, .empty⟩ t := reachable_iff.mpr ⟨_, ht⟩
  refine ⟨t, ht, hreach, numbered_calls_faithful hreach ⟨2⟩ 90 0 4096 1,
    ⟨rfl, q, hq, hrunnable⟩, .parked hp (by simpa using hwaits), ?_⟩
  have hvalue := of_decide_eq_true hvalue
  revert hvalue
  cases ((syscall ⟨2⟩ 90 0 4096 1).effect t).1 with
  | error f =>
    intro h
    cases h
  | ok value => exact fun h => congrArg Except.ok (Option.some.inj h)

end Kernel

end PagedKernel
