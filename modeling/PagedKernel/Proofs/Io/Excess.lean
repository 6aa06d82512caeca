import PagedKernel.Proofs.Io.Exchange

/-! What becomes of a device that reports more bytes than were asked for. A read that was accepted
or served from a buffer then fails as overrun. A synchronous read takes the device at its word. -/

namespace PagedKernel

namespace DeviceCall

def reported? : DeviceCall → Option Nat
  | issue _ _ _ (.ok (.immediate n)) => some n
  | bytesReady _ (.ok n) => some n
  | syncRead _ _ _ (.ok n) => some n
  | _ => none

def isSynchronous : DeviceCall → Bool
  | syncRead .. => true
  | _ => false

/-- How a read of `count` bytes ends when a call reported more. -/
def excess (call : DeviceCall) (count n : Nat) : ReadResult :=
  if call.isSynchronous then .ok n else .error (.overrun count n)

/-- If a call reported more than was asked for, the read ends by it. -/
def Heeded (count : Nat) (move : Move) (call : DeviceCall) : Prop :=
  ∀ n, call.reported? = some n → count < n → move = .finish (call.excess count n)

theorem Heeded.of_none {count : Nat} {move : Move} {call : DeviceCall} (h : call.reported? = none) :
    call.Heeded count move := by
  intro n hn
  rw [h] at hn
  cases hn

theorem Heeded.of_le {count n : Nat} {move : Move} {call : DeviceCall} (h : call.reported? = some n)
    (hn : n ≤ count) : call.Heeded count move := by
  intro m hm hmore
  rw [h] at hm
  cases hm
  exact absurd hmore (Nat.not_lt.mpr hn)

theorem Heeded.of_syncRead (fd : Fd) (buffer : VirtualAddress) (count : Nat)
    (answer : Except DeviceError Nat) :
    (syncRead fd buffer count answer).Heeded count (.finish (.ofDevice answer)) := by
  intro n hn _
  cases answer with
  | ok m =>
    cases hn
    rfl
  | error cause => cases hn

end DeviceCall

variable {fd : Fd} {buffer : VirtualAddress} {count n : Nat} {r : Read} {move : Move}
  {calls : List DeviceCall}

open DeviceCall (Heeded)

theorem Polled.heeded (h : Polled r move calls) : ∀ c ∈ calls, c.Heeded r.count move := by
  cases h with
  | rests => exact List.forall_mem_nil _
  | opens => exact List.forall_mem_nil _
  | busy => exact List.forall_mem_singleton.mpr (.of_none rfl)
  | progresses _ hn => exact List.forall_mem_singleton.mpr (.of_le rfl (Nat.le_of_lt hn))
  | completes =>
    exact List.forall_mem_cons.mpr ⟨.of_le rfl (Nat.le_refl _),
      List.forall_mem_singleton.mpr (.of_none rfl)⟩
  | overruns hn =>
    refine List.forall_mem_singleton.mpr fun m hm _ => ?_
    cases hm
    rfl
  | fails => exact List.forall_mem_singleton.mpr (.of_none rfl)

theorem Issued.heeded (h : Issued fd buffer count move calls) :
    ∀ c ∈ calls, c.Heeded count move := by
  cases h with
  | empty => exact List.forall_mem_nil _
  | starts => exact List.forall_mem_singleton.mpr (.of_none rfl)
  | delivers _ hn =>
    exact List.forall_mem_cons.mpr ⟨.of_le rfl hn, List.forall_mem_singleton.mpr (.of_none rfl)⟩
  | overruns hn =>
    refine List.forall_mem_singleton.mpr fun m hm _ => ?_
    cases hm
    rfl
  | fails => exact List.forall_mem_singleton.mpr (.of_none rfl)
  | falls _ answer =>
    exact List.forall_mem_cons.mpr ⟨.of_none rfl,
      List.forall_mem_singleton.mpr (Heeded.of_syncRead _ _ _ _)⟩
  | reads => exact List.forall_mem_singleton.mpr (Heeded.of_syncRead _ _ _ _)

theorem Exchanged.heeded (h : Exchanged r move calls) : ∀ c ∈ calls, c.Heeded r.count move := by
  cases h with
  | polled h => exact h.heeded
  | issued h => exact h.heeded
  | driven hpoll hissue =>
    refine List.forall_mem_append.mpr ⟨fun c hc n hn hmore => ?_, hissue.heeded⟩
    cases hpoll.heeded c hc n hn hmore
  | cancelled => exact List.forall_mem_nil _

theorem Polled.within (h : Polled r (.finish (.ok n)) calls) : n ≤ r.count := by
  generalize hmove : Move.finish (.ok n) = move at h
  cases h with
  | completes _ moved =>
    cases moved with
    | ok =>
      cases hmove
      exact Nat.le_refl _
    | error cause => cases hmove
  | _ => cases hmove

theorem Issued.within (h : Issued fd buffer count (.finish (.ok n)) calls) :
    n ≤ count ∨ ∃ c ∈ calls, c.isSynchronous = true ∧ c.reported? = some n := by
  generalize hmove : Move.finish (.ok n) = move at h
  cases h with
  | empty =>
    cases hmove
    exact .inl (Nat.zero_le _)
  | delivers _ hn moved =>
    cases moved with
    | ok =>
      cases hmove
      exact .inl hn
    | error cause => cases hmove
  | falls _ answer =>
    cases answer with
    | ok m =>
      cases hmove
      exact .inr ⟨_, List.mem_cons_of_mem _ List.mem_cons_self, rfl, rfl⟩
    | error cause => cases hmove
  | reads _ answer =>
    cases answer with
    | ok m =>
      cases hmove
      exact .inr ⟨_, List.mem_cons_self, rfl, rfl⟩
    | error cause => cases hmove
  | _ => cases hmove

theorem Exchanged.within (h : Exchanged r (.finish (.ok n)) calls) :
    n ≤ r.count ∨ ∃ c ∈ calls, c.isSynchronous = true ∧ c.reported? = some n := by
  cases h with
  | polled h => exact .inl h.within
  | issued h => exact h.within
  | driven _ h =>
    refine h.within.imp_right ?_
    rintro ⟨c, hc, hreported⟩
    exact ⟨c, List.mem_append_right _ hc, hreported⟩

namespace Read

variable {δ μ : Type} {backend : Backend δ μ} {slot : SlotId} {lent : List LoanCall}
  {loan : Option Loan} {s t : Read × RecordedWorld δ μ}

structure Heeds (slot : SlotId) (count : Nat) (s : Read × RecordedWorld δ μ) : Prop where
  excess : ∀ c ∈ s.2.device.calls, ∀ n, c.reported? = some n → count < n →
    s.1.state.isTerminal = true ∧ s.2.slots.get? slot = some (c.excess count n)
  within : ∀ n, s.2.slots.get? slot = some (.ok n) →
    n ≤ count ∨ ∃ c ∈ s.2.device.calls, c.isSynchronous = true ∧ c.reported? = some n

namespace Heeds

theorem makes (hi : Inv slot count lent loan s) (hh : Heeds slot count s)
    (hs : s.1.state.isTerminal = false) {d : Recorded δ DeviceCall}
    (hcalls : d.calls = s.2.device.calls ++ calls) (hexchanged : Exchanged s.1 move calls)
    (ht : Makes (fun _ => True) (withDevice s d) move t) : Heeds slot count t := by
  obtain ⟨hopen, -⟩ := hi.pending hs
  have hheeded := hexchanged.heeded
  rw [hi.sameCount] at hheeded
  have hbefore : ∀ c ∈ s.2.device.calls, ∀ n, c.reported? = some n → ¬ count < n := by
    intro c hc n hn hmore
    cases hs.symm.trans (hh.excess c hc n hn hmore).1
  cases ht with
  | wait state =>
    refine ⟨fun c hc n hn hmore => ?_, fun n hn => ?_⟩
    · rcases List.mem_append.mp (hcalls ▸ hc) with hc | hc
      · exact absurd hmore (hbefore c hc n hn)
      · cases hheeded c hc n hn hmore
    · cases (Slots.get?_of_open hopen).symm.trans hn
  | finish result =>
    have hresult : (s.2.slots.resolve s.1.slot result).2.get? slot = some result := by
      rw [hi.ownSlot]
      exact Slots.get?_resolve hopen result
    refine ⟨fun c hc n hn hmore => ?_, fun n hn => ?_⟩
    · rcases List.mem_append.mp (hcalls ▸ hc) with hc | hc
      · exact absurd hmore (hbefore c hc n hn)
      · cases hheeded c hc n hn hmore
        refine ⟨?_, hresult⟩
        cases c.excess count n <;> rfl
    · cases hresult.symm.trans hn
      refine (hi.sameCount ▸ hexchanged.within).imp_right ?_
      rintro ⟨c, hc, hreported⟩
      exact ⟨c, hcalls ▸ List.mem_append_right _ hc, hreported⟩

theorem step (hi : Inv slot count lent loan s) (hh : Heeds slot count s)
    (h : Step backend slot s t) : Heeds slot count t := by
  cases h with
  | call call h =>
    have hmakes := ((call.run_leads backend.recorded (returns_any _ _)).post h).2
    cases hs : s.1.state.isTerminal with
    | true => exact (((hi.call_leads call).post h).2.2 hs) ▸ hh
    | false =>
      have hdevice : backend.recorded.device = backend.device.recorded := rfl
      obtain ⟨calls, hcalls, hexchanged⟩ := ReadCall.move_exchanged hdevice s.1 s.2.device call
      exact hh.makes hi hs hcalls hexchanged hmakes
  | between d m slots h =>
    have hget : slots.get? slot = s.2.slots.get? slot := Slots.get?_congr h
    exact ⟨hget ▸ hh.excess, hget ▸ hh.within⟩

theorem run (hi : Inv slot count lent loan s) (hh : Heeds slot count s)
    (h : Run backend slot s t) : Heeds slot count t := by
  induction h with
  | refl => exact hh
  | tail hrun hstep ih => exact ih.step (hi.run hrun).1 hstep

end Heeds

/-- A read reports no more than was asked for, and fails where its device does. -/
structure Bounded (slot : SlotId) (count : Nat) (s : Read × RecordedWorld δ μ) : Prop where
  done : s.1.state = .done → ∃ n ≤ count, s.2.slots.get? slot = some (.ok n)
  overrun : ∀ c ∈ s.2.device.calls, ∀ n, c.reported? = some n → count < n →
    s.1.state = .failed ∧ s.2.slots.get? slot = some (.error (.overrun count n))

/-- A read is bounded as long as no synchronous read reports more than was asked for. What it
reports in that case is what the device said. -/
theorem bounded_iff {fd : Fd} {user : VirtualAddress} {slots : Slots} {d : δ} {m : μ}
    {events : Array Event} {r : Read} {t : Traced (Recorded μ LoanCall)}
    (hprepare : (prepare backend.mapper.recorded fd user count slot).run ⟨⟨m, []⟩, events⟩ =
      .ok (.ok r) t) (hopen : slots.Open slot) {s : Read × RecordedWorld δ μ}
    (hrun : Run backend slot (r, ⟨⟨d, []⟩, t.state, slots⟩) s) :
    (Bounded slot count s ↔ ∀ c ∈ s.2.device.calls, c.isSynchronous = true →
      ∀ n, c.reported? = some n → n ≤ count) ∧
    (∀ c ∈ s.2.device.calls, c.isSynchronous = true → ∀ n, c.reported? = some n → count < n →
      s.1.state = .done ∧ s.2.slots.get? slot = some (.ok n)) ∧
    ∀ call : ReadCall, (call.run backend.recorded).Leads (¬ backend.mapper.Answers) s fun _ u =>
      Run backend slot (r, ⟨⟨d, []⟩, t.state, slots⟩) u := by
  have hmade := (prepare_leads backend.mapper fd user count slot m).post hprepare r rfl
  have hstart := hmade.inv hopen d t.state.state
  have hheeds : Heeds slot count (r, (⟨⟨d, []⟩, t.state, slots⟩ : RecordedWorld δ μ)) := by
    refine ⟨List.forall_mem_nil _, fun n hn => ?_⟩
    cases (Slots.get?_of_open hopen).symm.trans hn
  obtain ⟨hi, -⟩ := hstart.run hrun
  have hh := hheeds.run hstart hrun
  have hbelieved : ∀ c ∈ s.2.device.calls, c.isSynchronous = true → ∀ n, c.reported? = some n →
      count < n → s.1.state = .done ∧ s.2.slots.get? slot = some (.ok n) := by
    intro c hc hsync n hn hmore
    obtain ⟨hover, hslot⟩ := hh.excess c hc n hn hmore
    obtain ⟨-, -, result, hresult, hstate⟩ := hi.ended hover
    rw [DeviceCall.excess, if_pos hsync] at hslot
    cases hresult.symm.trans hslot
    exact ⟨hstate, hslot⟩
  refine ⟨⟨fun hb c hc hsync n hn => ?_, fun hbound => ⟨fun hdone => ?_, ?_⟩⟩, hbelieved,
    fun call => ?_⟩
  · refine Nat.le_of_not_lt fun hmore => ?_
    have hdone := (hbelieved c hc hsync n hn hmore).1
    cases hdone.symm.trans (hb.overrun c hc n hn hmore).1
  · obtain ⟨-, -, result, hresult, hstate⟩ := hi.ended (by rw [hdone]; rfl)
    cases result with
    | error cause => cases hdone.symm.trans hstate
    | ok n =>
      refine ⟨n, ?_, hresult⟩
      rcases hh.within n hresult with hn | ⟨c, hc, hsync, hn⟩
      · exact hn
      · exact hbound c hc hsync n hn
  · intro c hc n hn hmore
    cases hsync : c.isSynchronous with
    | true => exact absurd (hbound c hc hsync n hn) (Nat.not_le_of_lt hmore)
    | false =>
      obtain ⟨hover, hslot⟩ := hh.excess c hc n hn hmore
      obtain ⟨-, -, result, hresult, hstate⟩ := hi.ended hover
      rw [DeviceCall.excess, hsync] at hslot
      cases hresult.symm.trans hslot
      exact ⟨hstate, hslot⟩
  · refine (hi.call_leads call).run.mono ?_
    rintro answer u ⟨-, events, later, hcall⟩
    exact hrun.tail (.call call hcall)

theorem bounded_iff_sixteenBytes : ∃ r t s,
    (prepare Backend.scripted.mapper.recorded ⟨3⟩ (.ofBits 0x10000000) 16 0).run
      ⟨⟨LedgerMapper.State.initial, []⟩, #[]⟩ = .ok (.ok r) t ∧
    Slots.empty.handOut.2.Open 0 ∧
    Run Backend.scripted 0
      (r, ⟨⟨ScriptedDevice.State.initial, []⟩, t.state, Slots.empty.handOut.2⟩) s ∧
    s.1.state = .inProgress ∧
    (Bounded 0 16 s ↔ ∀ c ∈ s.2.device.calls, c.isSynchronous = true →
      ∀ n, c.reported? = some n → n ≤ 16) ∧
    (∀ c ∈ s.2.device.calls, c.isSynchronous = true → ∀ n, c.reported? = some n → 16 < n →
      s.1.state = .done ∧ s.2.slots.get? 0 = some (.ok n)) ∧
    ∀ call : ReadCall, (call.run Backend.scripted.recorded).Leads
      (¬ Backend.scripted.mapper.Answers) s fun _ u => Run Backend.scripted 0
        (r, ⟨⟨ScriptedDevice.State.initial, []⟩, t.state, Slots.empty.handOut.2⟩) u := by
  obtain ⟨r, t, hprepare, a, u, hpoll, a', u', hissue, hstate⟩ : ∃ r t,
      (prepare Backend.scripted.mapper.recorded ⟨3⟩ (.ofBits 0x10000000) 16 0).run
        ⟨⟨LedgerMapper.State.initial, []⟩, #[]⟩ = .ok (.ok r) t ∧
      ∃ a u, ReadCall.run Backend.scripted.recorded .poll
        ⟨(r, ⟨⟨ScriptedDevice.State.initial, []⟩, t.state, Slots.empty.handOut.2⟩), #[]⟩ =
          .ok a u ∧
      ∃ a' u', ReadCall.run Backend.scripted.recorded .issue ⟨u.state, #[]⟩ = .ok a' u' ∧
        u'.state.1.state = .inProgress :=
    ⟨_, _, rfl, _, _, rfl, _, _, rfl, rfl⟩
  have hrun : Run Backend.scripted 0 _ u'.state :=
    (Relation.ReflTransGen.single (.call .poll hpoll)).tail (.call .issue hissue)
  have hopen : Slots.empty.handOut.2.Open 0 := rfl
  exact ⟨r, t, u'.state, hprepare, hopen, hrun, hstate, bounded_iff hprepare hopen hrun⟩

def oneTooMany : ScriptedDevice.State :=
  ⟨{ issue := some .unsupported, sync := some (.bytes (.fixed 17)) }, [], [], #[]⟩

theorem not_bounded_synchronous : ∃ r t s,
    (prepare Backend.scripted.mapper.recorded ⟨3⟩ (.ofBits 0x10000000) 16 0).run
      ⟨⟨LedgerMapper.State.initial, []⟩, #[]⟩ = .ok (.ok r) t ∧
    Run Backend.scripted 0 (r, ⟨⟨oneTooMany, []⟩, t.state, Slots.empty.handOut.2⟩) s ∧
    s.1.state = .done ∧ s.2.slots.get? 0 = some (.ok 17) ∧ ¬ Bounded 0 16 s := by
  obtain ⟨r, t, hprepare, a, u, hpoll, a', u', hissue, hdone, hslot⟩ : ∃ r t,
      (prepare Backend.scripted.mapper.recorded ⟨3⟩ (.ofBits 0x10000000) 16 0).run
        ⟨⟨LedgerMapper.State.initial, []⟩, #[]⟩ = .ok (.ok r) t ∧
      ∃ a u, ReadCall.run Backend.scripted.recorded .poll
        ⟨(r, ⟨⟨oneTooMany, []⟩, t.state, Slots.empty.handOut.2⟩), #[]⟩ = .ok a u ∧
      ∃ a' u', ReadCall.run Backend.scripted.recorded .issue ⟨u.state, #[]⟩ = .ok a' u' ∧
        u'.state.1.state = .done ∧ u'.state.2.slots.get? 0 = some (.ok 17) :=
    ⟨_, _, rfl, _, _, rfl, _, _, rfl, rfl, rfl⟩
  have hrun : Run Backend.scripted 0 _ u'.state :=
    (Relation.ReflTransGen.single (.call .poll hpoll)).tail (.call .issue hissue)
  refine ⟨r, t, u'.state, hprepare, hrun, hdone, hslot, fun hb => ?_⟩
  obtain ⟨n, hn, hresult⟩ := hb.done hdone
  cases hslot.symm.trans hresult
  exact absurd hn (by decide)

end Read
end PagedKernel
