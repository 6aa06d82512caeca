import Mathlib.Logic.Relation
import PagedKernel.Proofs.Io.Read
import PagedKernel.Proofs.Io.Recording

/-! The life of one read, over any mapper and with any answers of its device, however it
is polled, issued and cancelled. Until it ends it holds its loan and its slot is open;
the call that ends it asks the mapper once for what was lent, and stores the result. -/

namespace PagedKernel

/-- The ways of a read from state to state. -/
inductive ReadState.Next : ReadState → ReadState → Prop
  | stays (state : ReadState) : Next state state
  | opens : Next .notStarted .ready
  | starts : Next .ready .inProgress
  | ends {state : ReadState} (h : state = .ready ∨ state = .inProgress) : Next state .done
  | fails {state : ReadState} (h : state.isTerminal = false) : Next state .failed

theorem Move.From.next {state : ReadState} {move : Move} (h : Move.From state move) :
    state.Next move.state := by
  cases h with
  | stays => exact .stays _
  | opens => exact .opens
  | starts => exact .starts
  | ends h result =>
    cases result with
    | ok n => exact .ends h
    | error cause =>
      refine .fails ?_
      rcases h with rfl | rfl <;> rfl

namespace Read

inductive ReadCall where
  | poll
  | issue
  | cancel

variable {δ μ : Type}

namespace ReadCall

/-- A poll and an issue answer the state of the read, a cancel whether it ended it. -/
def run (backend : Backend δ μ) : ReadCall → Op (Read × IoWorld δ μ) (ReadState ⊕ Bool)
  | poll => return .inl (← Read.poll backend)
  | issue => return .inl (← Read.issue backend)
  | cancel => return .inr (← Read.cancel backend.mapper)

def move (backend : Backend δ μ) (r : Read) (d : δ) : ReadCall → Move × δ
  | poll => backend.device.pollMove r d
  | issue => backend.device.issueMove backend.asyncReads r d
  | cancel => (r.cancelMove, d)

def Answered (s t : Read × IoWorld δ μ) : ReadState ⊕ Bool → Prop
  | .inl state => state = t.1.state
  | .inr ended => ended = !s.1.state.isTerminal

variable {backend : Backend δ μ} {r : Read} {d : δ} {gap : Prop} {back : μ → Prop}
  {s : Read × IoWorld δ μ}

theorem move_next (call : ReadCall) : r.state.Next (call.move backend r d).1.state := by
  cases call with
  | poll => exact (backend.device.pollMove_from r d).next
  | issue => exact (backend.device.issueMove_from backend.asyncReads r d).next
  | cancel =>
    dsimp only [move, cancelMove]
    split
    · exact .stays _
    · next h => exact .fails (Bool.eq_false_iff.mpr h)

theorem move_of_isTerminal (h : r.state.isTerminal = true) (call : ReadCall) :
    call.move backend r d = (.wait r.state, d) := by
  cases call with
  | poll =>
    dsimp only [move, Device.pollMove]
    split
    · next hstate =>
      rw [hstate] at h
      cases h
    · next hstate =>
      rw [hstate] at h
      cases h
    · rfl
  | issue =>
    dsimp only [move, Device.issueMove]
    split
    · next hstate =>
      rw [hstate] at h
      cases h
    · rfl
  | cancel =>
    dsimp only [move, cancelMove]
    rw [if_pos h]

theorem move_of_empty (backend : Backend δ μ) (d : δ) (hcount : r.count = 0)
    (hstate : r.state ≠ .inProgress) (call : ReadCall) :
    (call.move backend r d).2 = d ∧ (call.move backend r d).1.state ≠ .inProgress := by
  cases call with
  | poll =>
    dsimp only [move, Device.pollMove]
    rw [if_pos hcount]
    split
    · exact ⟨rfl, nofun⟩
    · next h => exact absurd h hstate
    · exact ⟨rfl, hstate⟩
  | issue =>
    dsimp only [move, Device.issueMove]
    rw [if_pos hcount]
    split
    · exact ⟨rfl, nofun⟩
    · exact ⟨rfl, hstate⟩
  | cancel =>
    dsimp only [move, cancelMove]
    split
    · exact ⟨rfl, hstate⟩
    · exact ⟨rfl, nofun⟩

theorem move_wait {call : ReadCall} {state : ReadState}
    (h : (call.move backend r d).1 = .wait state) : state.isTerminal = r.state.isTerminal := by
  cases call with
  | poll =>
    have hfrom := backend.device.pollMove_from r d
    rw [show (backend.device.pollMove r d).1 = .wait state from h] at hfrom
    exact hfrom.isTerminal_eq
  | issue =>
    have hfrom := backend.device.issueMove_from backend.asyncReads r d
    rw [show (backend.device.issueMove backend.asyncReads r d).1 = .wait state from h] at hfrom
    exact hfrom.isTerminal_eq
  | cancel =>
    dsimp only [move, cancelMove] at h
    split at h
    · cases h
      rfl
    · cases h

theorem run_leads (backend : Backend δ μ)
    (h : Returns gap backend.mapper back s.2.mapper s.1.loan) (call : ReadCall) :
    (call.run backend).Leads gap s fun a t => Answered s t a ∧
      Makes back (withDevice s (call.move backend s.1 s.2.device).2)
        (call.move backend s.1 s.2.device).1 t := by
  cases call with
  | poll =>
    refine ((poll_comes backend s).leads h).bind ?_
    rintro state t ⟨rfl, ht⟩
    exact (Op.pure_gives _).leads ⟨rfl, ht⟩
  | issue =>
    refine ((issue_comes backend s).leads h).bind ?_
    rintro state t ⟨rfl, ht⟩
    exact (Op.pure_gives _).leads ⟨rfl, ht⟩
  | cancel =>
    refine (cancel_leads h).bind ?_
    rintro ended t ⟨rfl, ht⟩
    exact (Op.pure_gives _).leads ⟨rfl, ht⟩

end ReadCall

variable {backend : Backend δ μ} {slot : SlotId} {count : Nat} {lent : List LoanCall}
  {loan : Option Loan} {s t : Read × RecordedWorld δ μ}

/-- A call on the read, or whatever may happen between two calls: device and mapper may
be in any state by the next one, and only the slot of the read is its own. -/
inductive Step (backend : Backend δ μ) (slot : SlotId) :
    Read × RecordedWorld δ μ → Read × RecordedWorld δ μ → Prop
  | call {s : Read × RecordedWorld δ μ} {events : Array Event} {answer : ReadState ⊕ Bool}
    {t : Traced (Read × RecordedWorld δ μ)} (call : ReadCall)
    (h : call.run backend.recorded ⟨s, events⟩ = .ok answer t) : Step backend slot s t.state
  | between (s : Read × RecordedWorld δ μ) (d : δ) (m : μ) (slots : Slots)
    (h : slots.cells[slot]? = s.2.slots.cells[slot]?) :
    Step backend slot s
      (s.1, ⟨{ s.2.device with state := d }, { s.2.mapper with state := m }, slots⟩)

abbrev Run (backend : Backend δ μ) (slot : SlotId) :
    Read × RecordedWorld δ μ → Read × RecordedWorld δ μ → Prop :=
  Relation.ReflTransGen (Step backend slot)

/-- What a read asks of the mapper when it is made, and what it has to ask at its end. -/
inductive Dealings (user : VirtualAddress) : Nat → List LoanCall → List LoanCall → Prop
  | none : Dealings user 0 [] []
  | lent {count : Nat} (h : 0 < count) (base : VirtualAddress) :
    Dealings user count [.lend user.page.base (count + user.offset.toNat) (.ok base)]
      [.takeBack base (count + user.offset.toNat)]

theorem Dealings.of_empty {user : VirtualAddress} {back : List LoanCall}
    (h : Dealings user count lent back) (hzero : count = 0) : lent = [] ∧ back = [] := by
  cases h with
  | none => exact ⟨rfl, rfl⟩
  | lent hpos => exact absurd hzero (Nat.ne_of_gt hpos)

/-- How a read of `count` bytes stands, which asked the mapper for `lent` and has to ask
it for `back`. -/
structure Standing (slot : SlotId) (count : Nat) (lent back : List LoanCall)
    (s : Read × RecordedWorld δ μ) : Prop where
  pending : s.1.state.isTerminal = false → s.2.slots.get? slot = none ∧
    (s.1.holdsLoan = true ↔ 0 < count) ∧ s.2.mapper.calls = lent
  ended : s.1.state.isTerminal = true → s.1.holdsLoan = false ∧
    s.2.mapper.calls = lent ++ back ∧
    ∃ result, s.2.slots.get? slot = some result ∧ s.1.state = .of result
  empty : count = 0 → s.2.device.calls = [] ∧ s.2.mapper.calls = []

structure Unmoved (slot : SlotId) (s t : Read × RecordedWorld δ μ) : Prop where
  read : t.1 = s.1
  device : t.2.device.calls = s.2.device.calls
  mapper : t.2.mapper.calls = s.2.mapper.calls
  slot : t.2.slots.get? slot = s.2.slots.get? slot

/-- What holds of a read all its life: `loan` is what it was lent, after the requests
`lent`. -/
structure Inv (slot : SlotId) (count : Nat) (lent : List LoanCall) (loan : Option Loan)
    (s : Read × RecordedWorld δ μ) : Prop where
  sameCount : s.1.count = count
  ownSlot : s.1.slot = slot
  pending : s.1.state.isTerminal = false →
    s.2.slots.Open slot ∧ s.1.loan = loan ∧ s.2.mapper.calls = lent
  ended : s.1.state.isTerminal = true → s.1.loan = none ∧
    s.2.mapper.calls = lent ++ Loan.requests loan ∧
    ∃ result, s.2.slots.get? slot = some result ∧ s.1.state = .of result
  empty : count = 0 → s.2.device.calls = [] ∧ s.1.state ≠ .inProgress

namespace Inv

theorem makes {move : Move} {d : Recorded δ DeviceCall} (hi : Inv slot count lent loan s)
    (hs : s.1.state.isTerminal = false)
    (hwait : ∀ state, move = .wait state → state.isTerminal = false)
    (hempty : count = 0 → d.calls = [] ∧ move.state ≠ .inProgress)
    (ht : Makes (fun m => m.calls = s.2.mapper.calls ++ Loan.requests s.1.loan) (withDevice s d)
      move t) : Inv slot count lent loan t := by
  obtain ⟨hopen, hloan, hlent⟩ := hi.pending hs
  cases ht with
  | wait state =>
    refine ⟨hi.sameCount, hi.ownSlot, fun _ => ⟨hopen, hloan, hlent⟩, fun h => ?_, hempty⟩
    cases (hwait state rfl).symm.trans h
  | finish result h =>
    refine ⟨hi.sameCount, hi.ownSlot, fun hstate => ?_, fun _ => ⟨rfl, ?_, result, ?_, rfl⟩, hempty⟩
    · cases result <;> cases hstate
    · rw [← hlent, ← hloan]
      exact h
    · dsimp only [withDevice]
      rw [hi.ownSlot]
      exact Slots.get?_resolve hopen result

theorem call_leads (hi : Inv slot count lent loan s) (call : ReadCall) :
    (call.run backend.recorded).Leads (¬ backend.mapper.Answers) s fun answer t =>
      (ReadCall.Answered s t answer ∧ s.1.state.Next t.1.state) ∧ Inv slot count lent loan t ∧
        (s.1.state.isTerminal = true → t = s) := by
  refine (call.run_leads backend.recorded
    (returns_recorded backend.mapper s.2.mapper s.1.loan)).mono ?_
  rintro answer t ⟨hanswer, ht⟩
  have hnext : s.1.state.Next t.1.state := by
    rw [ht.state]
    exact call.move_next
  refine ⟨⟨hanswer, hnext⟩, ?_⟩
  cases hs : s.1.state.isTerminal with
  | true =>
    rw [call.move_of_isTerminal hs] at ht
    obtain rfl : t = s := by
      cases ht
      rfl
    exact ⟨hi, fun _ => rfl⟩
  | false =>
    refine ⟨hi.makes hs (fun _ h => (ReadCall.move_wait h).trans hs) (fun hzero => ?_) ht, nofun⟩
    obtain ⟨hcalls, hstate⟩ := hi.empty hzero
    obtain ⟨hdevice, hmove⟩ := call.move_of_empty backend.recorded
      s.2.device (hi.sameCount.trans hzero) hstate
    rw [hdevice]
    exact ⟨hcalls, hmove⟩

theorem step (hi : Inv slot count lent loan s) (h : Step backend slot s t) :
    Inv slot count lent loan t ∧ (s.1.state.isTerminal = true → Unmoved slot s t) := by
  cases h with
  | call call h =>
    obtain ⟨-, ht, hsame⟩ := (hi.call_leads call).post h
    exact ⟨ht, fun hs => hsame hs ▸ ⟨rfl, rfl, rfl, rfl⟩⟩
  | between d m slots h =>
    have hget : slots.get? slot = s.2.slots.get? slot := by
      rw [Slots.get?, Slots.get?, h]
    refine ⟨⟨hi.sameCount, hi.ownSlot, fun hs => ?_, fun hs => ?_, hi.empty⟩,
      fun _ => ⟨rfl, rfl, rfl, hget⟩⟩
    · exact (hi.pending hs).imp_left h.trans
    · rw [hget]
      exact hi.ended hs

theorem run (hi : Inv slot count lent loan s) (h : Run backend slot s t) :
    Inv slot count lent loan t ∧ (s.1.state.isTerminal = true → Unmoved slot s t) := by
  induction h with
  | refl => exact ⟨hi, fun _ => ⟨rfl, rfl, rfl, rfl⟩⟩
  | tail _ hstep ih =>
    -- a read that ended is unmoved by the steps so far, so it has still ended before the last
    obtain ⟨hu, hunmoved⟩ := ih
    obtain ⟨hv, hlast⟩ := hu.step hstep
    refine ⟨hv, fun hs => ?_⟩
    have hfirst := hunmoved hs
    have hsecond := hlast (by rw [hfirst.read]; exact hs)
    exact ⟨hsecond.read.trans hfirst.read, hsecond.device.trans hfirst.device,
      hsecond.mapper.trans hfirst.mapper, hsecond.slot.trans hfirst.slot⟩

end Inv

/-- A read as it is made, for which the mapper was asked `calls`. -/
structure Made (user : VirtualAddress) (count : Nat) (slot : SlotId) (calls : List LoanCall)
    (r : Read) : Prop where
  state : r.state = .notStarted
  loan : r.holdsLoan = true ↔ 0 < count
  dealings : Dealings user count calls (Loan.requests r.loan)
  sameCount : r.count = count
  ownSlot : r.slot = slot

theorem recorded_lend_leads (mapper : AliasMapper μ) (user : VirtualAddress) (length : Nat)
    (m : μ) : (mapper.recorded.lend user length).run.Leads True ⟨m, []⟩ fun answer m' =>
      m'.calls = [.lend user length answer] := by
  refine Op.Leads.bind (m := fun _ m' => m'.calls = [])
    (Op.zoom_leads Recorded.inner ((Op.leads_any _ _).mono fun _ _ _ => rfl)) ?_
  intro answer m' hm'
  refine (Op.modify_gives _).bind_leads ((Op.pure_gives _).leads ?_)
  rw [Recorded.add, hm']
  rfl

theorem prepare_leads (mapper : AliasMapper μ) (fd : Fd) (user : VirtualAddress) (count : Nat)
    (slot : SlotId) (m : μ) :
    (prepare mapper.recorded fd user count slot).run.Leads True ⟨m, []⟩ fun answer t =>
      ∀ r, answer = .ok r → Made user count slot t.calls r := by
  unfold prepare
  split
  · next hzero =>
    subst hzero
    rintro events r ⟨⟩
    exact ⟨rfl, by simp [holdsLoan], .none, rfl, rfl⟩
  · next hzero =>
    cases hspan : checkedAdd count user.offset.toNat with
    | none =>
      rintro events r ⟨⟩
    | some span =>
      obtain ⟨rfl, -⟩ := checkedAdd_eq_some_iff.mp hspan
      refine Op.Leads.bind (recorded_lend_leads mapper _ _ m) ?_
      intro answer t ht
      cases answer with
      | error cause => rintro events r ⟨⟩
      | ok base =>
        dsimp only [ExceptT.bindCont]
        cases hkernel : base.add user.offset with
        | error fault => exact fun _ => trivial
        | ok kernel =>
          rintro events r ⟨⟩
          refine ⟨rfl, by simp [holdsLoan, Nat.pos_of_ne_zero hzero], ?_, rfl, rfl⟩
          rw [ht]
          exact .lent (Nat.pos_of_ne_zero hzero) base

theorem Made.inv {user : VirtualAddress} {r : Read} {slots : Slots}
    (h : Made user count slot lent r) (hopen : slots.Open slot) (d : δ) (m : μ) :
    Inv slot count lent r.loan (r, ⟨⟨d, []⟩, ⟨m, lent⟩, slots⟩) := by
  refine ⟨h.sameCount, h.ownSlot, fun _ => ⟨hopen, rfl, rfl⟩, fun hs => ?_, fun _ => ⟨rfl, ?_⟩⟩
  · rw [h.state] at hs
    cases hs
  · rw [h.state]
    nofun

theorem Inv.standing {user : VirtualAddress} {r : Read} (hi : Inv slot count lent r.loan s)
    (h : Made user count slot lent r) : Standing slot count lent (Loan.requests r.loan) s := by
  refine ⟨fun hs => ?_, fun hs => ?_, fun hzero => ⟨(hi.empty hzero).1, ?_⟩⟩
  · obtain ⟨hopen, hloan, hcalls⟩ := hi.pending hs
    refine ⟨Slots.get?_of_open hopen, ?_, hcalls⟩
    rw [holdsLoan, hloan]
    exact h.loan
  · obtain ⟨hloan, hcalls, hslot⟩ := hi.ended hs
    refine ⟨?_, hcalls, hslot⟩
    rw [holdsLoan, hloan]
    rfl
  · obtain ⟨hlent, hback⟩ := h.dealings.of_empty hzero
    cases hs : s.1.state.isTerminal with
    | false => exact (hi.pending hs).2.2.trans hlent
    | true => rw [(hi.ended hs).2.1, hlent, hback, List.append_nil]

/-- What a call does to the read, where `back` is what its end has to ask of the mapper. -/
structure Called (slot : SlotId) (back : List LoanCall) (s t : Read × RecordedWorld δ μ) :
    Prop where
  state : s.1.state.Next t.1.state
  waits : t.1.state.isTerminal = false → t.2.mapper.calls = s.2.mapper.calls
  ends : s.1.state.isTerminal = false → t.1.state.isTerminal = true →
    t.2.mapper.calls = s.2.mapper.calls ++ back ∧ s.2.slots.get? slot = none ∧
      ∃ result, t.2.slots.get? slot = some result ∧ t.1.state = .of result
  final : s.1.state.isTerminal = true → t = s

theorem lifecycle {backend : Backend δ μ} {fd : Fd} {user : VirtualAddress} {count : Nat}
    {slot : SlotId} {slots : Slots} {d : δ} {m : μ} {events : Array Event} {r : Read}
    {t : Traced (Recorded μ LoanCall)}
    (hprepare : (prepare backend.mapper.recorded fd user count slot).run ⟨⟨m, []⟩, events⟩ =
      .ok (.ok r) t) (hopen : slots.Open slot) :
    ∃ lent back, Dealings user count lent back ∧
      ∀ s, Run backend slot (r, ⟨⟨d, []⟩, t.state, slots⟩) s →
        Standing slot count lent back s ∧
        (s.1.state.isTerminal = true → ∀ u, Run backend slot s u → Unmoved slot s u) ∧
        ∀ call : ReadCall, (call.run backend.recorded).Leads (¬ backend.mapper.Answers) s
          fun answer u => ReadCall.Answered s u answer ∧ Called slot back s u := by
  have hmade := (prepare_leads backend.mapper fd user count slot m).post hprepare r rfl
  refine ⟨t.state.calls, Loan.requests r.loan, hmade.dealings, fun s hrun => ?_⟩
  obtain ⟨hi, -⟩ := (hmade.inv hopen d t.state.state).run hrun
  have hs := hi.standing hmade
  refine ⟨hs, fun hover u hu => (hi.run hu).2 hover, fun call => ?_⟩
  refine (hi.call_leads call).mono ?_
  rintro answer u ⟨⟨hanswer, hnext⟩, hu, hover⟩
  have ht := hu.standing hmade
  refine ⟨hanswer, hnext, fun hwaits => ?_, fun hbefore hafter => ?_, hover⟩
  · cases hbefore : s.1.state.isTerminal with
    | false => rw [(ht.pending hwaits).2.2, (hs.pending hbefore).2.2]
    | true => rw [hover hbefore]
  · obtain ⟨hslot, -, hcalls⟩ := hs.pending hbefore
    obtain ⟨-, hcalls', hslot'⟩ := ht.ended hafter
    exact ⟨by rw [hcalls', hcalls], hslot, hslot'⟩

theorem lifecycle_scripted : ∃ r t,
    (prepare Backend.scripted.mapper.recorded ⟨3⟩ (.ofBits 0x10000ff6) 100 0).run
      ⟨⟨LedgerMapper.State.initial, []⟩, #[]⟩ = .ok (.ok r) t ∧
    Slots.empty.handOut.2.Open 0 ∧
    ∃ lent back, Dealings (.ofBits 0x10000ff6) 100 lent back ∧
      ∀ s, Run Backend.scripted 0
          (r, ⟨⟨ScriptedDevice.State.initial, []⟩, t.state, Slots.empty.handOut.2⟩) s →
        Standing 0 100 lent back s ∧
        (s.1.state.isTerminal = true → ∀ u, Run Backend.scripted 0 s u → Unmoved 0 s u) ∧
        ∀ call : ReadCall, (call.run Backend.scripted.recorded).Leads
          (¬ Backend.scripted.mapper.Answers) s
          fun answer u => ReadCall.Answered s u answer ∧ Called 0 back s u := by
  have hprepare : ∃ r t,
      (prepare Backend.scripted.mapper.recorded ⟨3⟩ (.ofBits 0x10000ff6) 100 0).run
        ⟨⟨LedgerMapper.State.initial, []⟩, #[]⟩ = .ok (.ok r) t := ⟨_, _, rfl⟩
  obtain ⟨r, t, hrun⟩ := hprepare
  exact ⟨r, t, hrun, rfl, lifecycle hrun rfl⟩

end Read
end PagedKernel
