import PagedKernel.Proofs.Io.Separation
import PagedKernel.Proofs.Io.SideBySide

/-! Reads without asynchronous help. A backend that never tries to read asynchronously, and one
that tries on a device without such support, serve every series of requests alike: the second
only makes the vain attempts besides. No read is ever in progress in either. -/

namespace PagedKernel

variable {δ μ : Type}

/-- The device without its asynchronous reads: the attempt is turned down and changes nothing. -/
def Device.withoutAsync (device : Device δ) : Device δ :=
  { device with issue := fun _ _ _ d => (.ok .notSupported, d) }

def Backend.synchronous (backend : Backend δ μ) : Backend δ μ :=
  { backend with asyncReads := false }

def Backend.withoutAsync (backend : Backend δ μ) : Backend δ μ :=
  { backend with device := backend.device.withoutAsync, asyncReads := true }

def DeviceCall.isIssue : DeviceCall → Bool
  | issue .. => true
  | _ => false

/-! ### Requests -/

/-- What is asked of a queue over time, and what happens to its device meanwhile. -/
inductive QueueRequest (δ : Type) where
  /-- A read is made and, unless the mapper refuses, submitted. -/
  | read (pid : ProcessId) (fd : Fd) (user : VirtualAddress) (count : Nat) (slot : SlotId)
  | pollAll
  | cancelProcess (pid : ProcessId)
  | cancelDescriptor (fd : Fd)
  /-- The device changes on its own. -/
  | drift (f : δ → δ)

namespace QueueRequest

def mapperPart : Focus (ReadQueue × IoWorld δ μ) μ :=
  ⟨fun ⟨q, ⟨device, mapper, slots⟩⟩ => (mapper, fun mapper => (q, ⟨device, mapper, slots⟩))⟩

def drifted (f : δ → δ) : ReadQueue × RecordedWorld δ μ → ReadQueue × RecordedWorld δ μ
  | (q, ⟨⟨device, calls⟩, mapper, slots⟩) => (q, ⟨⟨f device, calls⟩, mapper, slots⟩)

def run (backend : Backend δ μ) :
    QueueRequest δ → Op (ReadQueue × RecordedWorld δ μ) (Except AliasError (List Completion))
  | read pid fd user count slot => do
    match ← Op.zoom mapperPart (Read.prepare backend.recorded.mapper fd user count slot).run with
    | .ok r =>
      Op.zoom QueueCall.queuePart (ReadQueue.submit pid r)
      return .ok []
    | .error cause => return .error cause
  | pollAll => do return .ok (← ReadQueue.pollAll backend.recorded)
  | cancelProcess pid => do return .ok (← ReadQueue.cancelProcess backend.recorded.mapper pid)
  | cancelDescriptor fd => do return .ok (← ReadQueue.cancelDescriptor backend.recorded.mapper fd)
  | drift f => do
    Op.modify (drifted f)
    return .ok []

def runAll (backend : Backend δ μ) :
    List (QueueRequest δ) →
      Op (ReadQueue × RecordedWorld δ μ) (List (Except AliasError (List Completion)))
  | [] => return []
  | request :: requests => do
    let answer ← request.run backend
    let later ← runAll backend requests
    return answer :: later

end QueueRequest

/-! ### Two devices abreast -/

/-- Two devices that differ in the vain attempts of the second only. -/
structure Device.Abreast (d d' : Recorded δ DeviceCall) : Prop where
  state : d.state = d'.state
  calls : d.calls = d'.calls.filter fun c => !c.isIssue

theorem AliasMapper.Blind.recorded {mapper : AliasMapper μ} (h : mapper.Blind) :
    mapper.recorded.Blind where
  lend user length := by
    refine Call.blind_iff.mpr (((Call.blind_iff.mp (h.lend user length)).zoom _).bind ?_)
    exact fun answer => (Op.modify_blind _).bind fun _ => Op.pure_blind answer
  takeBack kernel length := by
    refine Call.blind_iff.mpr ((Op.modify_blind _).bind fun _ => ?_)
    exact (Call.blind_iff.mp (h.takeBack kernel length)).zoom _

namespace Device.Abreast

variable {α : Type} {d d' : Recorded δ DeviceCall}

theorem ask (h : Abreast d d') (f : δ → α × δ) {call : α → DeviceCall}
    (hcall : ∀ a, (call a).isIssue = false) :
    (Recorded.ask f call d).1 = (Recorded.ask f call d').1 ∧
      Abreast (Recorded.ask f call d).2 (Recorded.ask f call d').2 := by
  obtain ⟨hstate, hcalls⟩ := h
  simp only [Recorded.ask, hstate]
  refine ⟨trivial, rfl, ?_⟩
  simp [Recorded.add, hcalls, hcall]

theorem attempt (h : Abreast d d') (device : Device δ) (fd : Fd) (buffer : VirtualAddress)
    (count : Nat) : Abreast d (device.withoutAsync.recorded.issue fd buffer count d').2 := by
  refine ⟨h.state, ?_⟩
  simp [recorded, withoutAsync, Recorded.ask, Recorded.add, DeviceCall.isIssue, h.calls]

end Device.Abreast

open Op (Agrees)

variable {backend : Backend δ μ}

/-! ### One read -/

namespace Read

abbrev Abreast (s s' : Read × RecordedWorld δ μ) : Prop :=
  Beside Device.Abreast (fun state => state ≠ .inProgress) s s'

theorem ask_agrees {α : Type} (f : δ → α × δ) {call : α → DeviceCall}
    (hcall : ∀ a, (call a).isIssue = false) :
    Agrees (Abreast (δ := δ) (μ := μ)) (fun _ => True) (onDevice (Recorded.ask f call))
      (onDevice (Recorded.ask f call)) :=
  onDevice_agrees fun _ _ hd => hd.ask f hcall

theorem finished_agrees (hm : backend.mapper.Blind) (result : ReadResult) :
    Agrees (Abreast (δ := δ) (μ := μ)) (fun _ => True) (finish backend.recorded.mapper result)
      (finish backend.recorded.mapper result) :=
  finish_agrees hm.recorded (by decide) (by decide) result

theorem readSynchronously_agrees (hm : backend.mapper.Blind) :
    Agrees (Abreast (δ := δ) (μ := μ)) (fun _ => True)
      (readSynchronously backend.synchronous.recorded)
      (readSynchronously backend.withoutAsync.recorded) := by
  refine current_agrees.bind fun r _ => (ask_agrees _ fun _ => rfl).bind fun answer _ => ?_
  cases answer with
  | ok n => exact finished_agrees hm _
  | error cause => exact finished_agrees hm _

theorem mayStart_agrees (r : Read) :
    Agrees (Abreast (δ := δ) (μ := μ)) (fun _ => True)
      (mayStart backend.synchronous.recorded r) (mayStart backend.withoutAsync.recorded r) := by
  unfold mayStart
  split
  · exact Op.pure_agrees trivial
  · exact (ask_agrees _ fun _ => rfl).bind fun _ _ => Op.pure_agrees trivial

theorem poll_agrees :
    Agrees (Abreast (δ := δ) (μ := μ)) (fun state => state ≠ .inProgress)
      (poll backend.synchronous.recorded) (poll backend.withoutAsync.recorded) := by
  refine current_agrees.bind fun r hr => ?_
  cases hstate : r.state with
  | notStarted =>
    refine (mayStart_agrees r).bind fun may _ => ?_
    cases may with
    | false => exact lastState_agrees
    | true =>
      refine (setState_agrees (by decide)).bind fun _ _ => ?_
      exact (Op.record_agrees _ _).bind fun _ _ => lastState_agrees
  | inProgress => exact absurd hstate hr
  | ready => exact lastState_agrees
  | done => exact lastState_agrees
  | failed => exact lastState_agrees

theorem attempt {s s' : Read × RecordedWorld δ μ} (h : Abreast s s') (fd : Fd)
    (buffer : VirtualAddress) (count : Nat) (events : Array Event) :
    ∃ s'' later, onDevice (backend.withoutAsync.recorded.device.issue fd buffer count)
      ⟨s', events⟩ = .ok (.ok .notSupported) ⟨s'', later⟩ ∧ Abreast s s'' :=
  ⟨_, events, rfl, h.read, h.state, h.world.device.attempt backend.device fd buffer count,
    h.world.mapper, h.world.slots⟩

theorem issue_agrees (hm : backend.mapper.Blind) :
    Agrees (Abreast (δ := δ) (μ := μ)) (fun state => state ≠ .inProgress)
      (issue backend.synchronous.recorded) (issue backend.withoutAsync.recorded) := by
  refine current_agrees.bind fun r _ => ?_
  by_cases hready : r.state = .ready
  · simp only [hready, if_true]
    by_cases hcount : r.count = 0
    · simp only [hcount, if_true]
      exact (finished_agrees hm _).bind fun _ _ => lastState_agrees
    · simp only [hcount, if_false]
      refine Agrees.then_right (fun s s' events h => attempt h _ _ _ events) ?_
      refine Agrees.then_right (fun s s' events h => ⟨s', _, rfl, h⟩) ?_
      exact (readSynchronously_agrees hm).bind fun _ _ => lastState_agrees
  · simp only [hready, if_false]
    exact lastState_agrees

end Read

/-! ### The queue -/

namespace ReadQueue

abbrev Abreast (s s' : ReadQueue × RecordedWorld δ μ) : Prop :=
  Beside Device.Abreast (fun state => state ≠ .inProgress) s s'

theorem drive_agrees (hm : backend.mapper.Blind) :
    Agrees (Read.Abreast (δ := δ) (μ := μ)) (fun state => state ≠ .inProgress)
      (drive backend.synchronous.recorded) (drive backend.withoutAsync.recorded) := by
  refine Read.poll_agrees.bind fun state hstate => ?_
  split
  · exact Read.issue_agrees hm
  · exact Op.pure_agrees hstate

theorem pollEntries_agrees (hm : backend.mapper.Blind) {es : List QueueEntry}
    (hes : ∀ e ∈ es, e.read.state ≠ .inProgress) (claimed : List Fd) (ended : List Completion) :
    Agrees (Abreast (δ := δ) (μ := μ)) (fun _ => True)
      (pollEntries backend.synchronous.recorded claimed ended es)
      (pollEntries backend.withoutAsync.recorded claimed ended es) := by
  induction es generalizing claimed ended with
  | nil => exact Op.pure_agrees trivial
  | cons e rest ih =>
    obtain ⟨he, hrest⟩ := List.forall_mem_cons.mp hes
    rw [pollEntries, pollEntries]
    split
    · exact (keep_agrees he).bind fun _ _ => ih hrest _ _
    · refine (withRead_agrees he ?_ (drive_agrees hm)).bind ?_
      · rintro e t t' he ⟨hqueue, hstates, hworld⟩
        refine ⟨?_, ?_, hworld⟩
        · simp only [requeue, hqueue]
        · simp only [requeue, List.forall_mem_append, List.forall_mem_cons]
          exact ⟨hstates, he, hrest⟩
      · rintro ⟨state, e⟩ ⟨-, he⟩
        dsimp only
        split
        · refine (completionOf_agrees e).bind fun completion _ => ?_
          exact (discard_agrees e).bind fun _ _ => ih hrest _ _
        · exact (keep_agrees he).bind fun _ _ => ih hrest _ _

theorem pollAll_agrees (hm : backend.mapper.Blind) :
    Agrees (Abreast (δ := δ) (μ := μ)) (fun _ => True)
      (pollAll backend.synchronous.recorded) (pollAll backend.withoutAsync.recorded) := by
  refine takeEntries_agrees.bind fun es hes => ?_
  refine (pollEntries_agrees hm hes [] []).bind fun ended _ => ?_
  dsimp only
  split
  · exact Op.pure_agrees trivial
  · refine Agrees.bind (p := fun _ => True)
      (Op.read_agrees fun _ _ hs => ⟨by rw [hs.queue], trivial⟩) fun size _ => ?_
    exact (Op.record_agrees _ _).bind fun _ _ => Op.pure_agrees trivial

theorem cancelled_agrees (hm : backend.mapper.Blind) (selected : QueueEntry → Bool) :
    Agrees (Abreast (δ := δ) (μ := μ)) (fun _ => True)
      (cancelWhere backend.recorded.mapper selected)
      (cancelWhere backend.recorded.mapper selected) :=
  cancelWhere_agrees hm.recorded (by decide) (by decide) selected

end ReadQueue

/-! ### Requests in a row -/

namespace QueueRequest

theorem run_agrees (hm : backend.mapper.Blind) (request : QueueRequest δ) :
    Agrees (ReadQueue.Abreast (δ := δ) (μ := μ)) (fun _ => True)
      (request.run backend.synchronous) (request.run backend.withoutAsync) := by
  cases request with
  | read pid fd user count slot =>
    refine Agrees.bind (Agrees.zoom ?_ (Read.prepare_agrees hm.recorded fd user count slot)) ?_
    · intro s s' hs
      refine ⟨hs.world.mapper, fun m m' hm => ?_⟩
      exact ⟨hs.queue, hs.states, hs.world.device, hm, hs.world.slots⟩
    intro answer hfresh
    cases answer with
    | error cause => exact Op.pure_agrees trivial
    | ok r =>
      have hr : r.state ≠ .inProgress := by
        rw [hfresh r rfl]
        decide
      have hsubmit := ReadQueue.submit_agrees (W := fun state => state ≠ .inProgress) pid hr
      refine Agrees.bind (Agrees.zoom ?_ hsubmit) fun _ _ => Op.pure_agrees trivial
      exact fun s s' hs => ⟨⟨hs.queue, hs.states⟩, fun q q' hq => ⟨hq.1, hq.2, hs.world⟩⟩
  | pollAll => exact (ReadQueue.pollAll_agrees hm).bind fun _ _ => Op.pure_agrees trivial
  | cancelProcess pid =>
    exact (ReadQueue.cancelled_agrees hm _).bind fun _ _ => Op.pure_agrees trivial
  | cancelDescriptor fd =>
    exact (ReadQueue.cancelled_agrees hm _).bind fun _ _ => Op.pure_agrees trivial
  | drift f =>
    refine Agrees.bind (Op.modify_agrees fun s s' hs => ?_) fun _ _ => Op.pure_agrees trivial
    have hstate := congrArg f hs.world.device.state
    exact ⟨hs.queue, hs.states, ⟨hstate, hs.world.device.calls⟩, hs.world.mapper, hs.world.slots⟩

theorem runAll_agrees (hm : backend.mapper.Blind) (requests : List (QueueRequest δ)) :
    Agrees (ReadQueue.Abreast (δ := δ) (μ := μ)) (fun _ => True)
      (runAll backend.synchronous requests) (runAll backend.withoutAsync requests) := by
  induction requests with
  | nil => exact Op.pure_agrees trivial
  | cons request requests ih =>
    refine (run_agrees hm request).bind fun answer _ => ?_
    exact ih.bind fun later _ => Op.pure_agrees trivial

/-- A backend that never tries to read asynchronously serves a new queue as one does whose
device turns every attempt down: all requests are answered the same, and queue, slots, mapper
and device are the same in the end, down to the calls made on them, the attempts apart. -/
theorem synchronous_as_unsupported (backend : Backend δ μ) (hm : backend.mapper.Blind)
    (requests : List (QueueRequest δ)) (d : δ) (m : μ) (slots : Slots)
    (events events' : Array Event) :
    Op.SameEnd ReadQueue.Abreast (fun _ => True)
      (runAll backend.synchronous requests ⟨(.empty, ⟨⟨d, []⟩, ⟨m, []⟩, slots⟩), events⟩)
      (runAll backend.withoutAsync requests ⟨(.empty, ⟨⟨d, []⟩, ⟨m, []⟩, slots⟩), events'⟩) :=
  runAll_agrees hm requests _ _ events events' ⟨rfl, nofun, ⟨rfl, rfl⟩, rfl, rfl⟩

theorem ledger_blind : LedgerMapper.mapper.Blind where
  lend _ _ := Call.blind_iff.mpr (Op.update_blind _)
  takeBack _ _ := Call.blind_iff.mpr (Op.update_blind _)

def eager : ScriptedDevice.State :=
  ⟨{ sync := some (.bytes .requested) }, [], [], #[]⟩

def twoReads : List (QueueRequest ScriptedDevice.State) :=
  [.read ⟨1⟩ ⟨3⟩ (.ofBits 16384) 8 0, .read ⟨2⟩ ⟨3⟩ (.ofBits 20488) 4 1, .pollAll]

def begun : ReadQueue × RecordedWorld ScriptedDevice.State LedgerMapper.State :=
  (.empty, ⟨⟨eager, []⟩, ⟨.initial, []⟩, QueueCall.fourSlots⟩)

theorem synchronous_as_unsupported_twoReads :
    Backend.scripted.mapper.Blind ∧
    Op.SameEnd ReadQueue.Abreast (fun _ => True)
      (runAll Backend.scripted.synchronous twoReads ⟨begun, #[]⟩)
      (runAll Backend.scripted.withoutAsync twoReads ⟨begun, #[]⟩) ∧
    ((runAll Backend.scripted.withoutAsync twoReads).outcome? begun).map
        (fun (answers, t) => (answers.map fun answer => answer.toOption.map fun ended =>
          ended.map (·.result.toOption), t.state.2.device.calls.map (·.isIssue))) =
      some ([some [], some [], some [some 8, some 4]],
        [false, true, false, false, true, false]) :=
  ⟨ledger_blind,
    synchronous_as_unsupported Backend.scripted ledger_blind twoReads eager .initial
      QueueCall.fourSlots #[] #[],
    by decide +kernel⟩

end QueueRequest

end PagedKernel
