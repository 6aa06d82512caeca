import PagedKernel.Io.Queue
import PagedKernel.Proofs.Io.Move
import PagedKernel.Proofs.Reduction

/-! The steps of a read make the moves. Whatever the mapper and the slots are, a step
asks the device as its move does, and then the read goes on waiting, or it gives its loan
back and stores its result. -/

namespace PagedKernel

namespace Read

variable {δ μ : Type} {mapper : AliasMapper μ} {backend : Backend δ μ}

def withDevice (s : Read × IoWorld δ μ) (device : δ) : Read × IoWorld δ μ :=
  (s.1, ⟨device, s.2.mapper, s.2.slots⟩)

theorem onDevice_gives {α : Type} (f : δ → α × δ) (s : Read × IoWorld δ μ) :
    (onDevice f).Gives s (f s.2.device).1 (withDevice s (f s.2.device).2) :=
  Op.zoom_gives devicePart (s := s) (Op.update_gives f)

theorem current_gives (s : Read × IoWorld δ μ) : current.Gives s s.1 s :=
  Op.read_gives _

theorem setState_gives (state : ReadState) (s : Read × IoWorld δ μ) :
    (setState state).Gives s () ({ s.1 with state }, s.2) :=
  Op.modify_gives _

def answer : Op (Read × IoWorld δ μ) ReadState := do
  return (← current).state

def settle (mapper : AliasMapper μ) : Move → Op (Read × IoWorld δ μ) ReadState
  | .wait state => do
    setState state
    answer
  | .finish result => do
    finish mapper result
    answer

/-- A step comes to a move, with the device as the move leaves it. -/
def Comes (mapper : AliasMapper μ) (x : Op (Read × IoWorld δ μ) ReadState)
    (s : Read × IoWorld δ μ) (move : Move × δ) : Prop :=
  x.Reduces (settle mapper move.1) s (withDevice s move.2)

theorem onDevice_eq {α : Type} {f : δ → α × δ} {s : Read × IoWorld δ μ} {a : α} {d : δ}
    (h : f s.2.device = (a, d)) : (onDevice f).Gives s a (withDevice s d) := by
  have hgives := onDevice_gives f s
  rw [h] at hgives
  exact hgives

theorem comes_stay {s : Read × IoWorld δ μ} {d : δ} {state : ReadState} (h : s.1.state = state) :
    answer.Reduces (settle mapper (.wait state)) (withDevice s d) (withDevice s d) := by
  subst h
  exact .refl _ _

theorem advance_comes (device : Device δ) (fd : Fd) (n : Nat) (s : Read × IoWorld δ μ) :
    Comes mapper (do
      finish mapper (← advance device fd n)
      answer) s ((device.advance fd n s.2.device).map .finish id) := by
  unfold Comes Device.advance
  cases h : device.seek fd (min n maxSeek) s.2.device with
  | mk moved d =>
    cases moved with
    | ok =>
      have hrun : (advance device fd n).Gives s (.ok n) (withDevice s d) :=
        (onDevice_eq h).bind_gives (Op.pure_gives _)
      exact hrun.bind_reduces (.refl _ _)
    | error cause =>
      have hrun : (advance device fd n).Gives s (.error (.device cause)) (withDevice s d) :=
        (onDevice_eq h).bind_gives (Op.pure_gives _)
      exact hrun.bind_reduces (.refl _ _)

theorem readSynchronously_comes (backend : Backend δ μ) (s : Read × IoWorld δ μ) :
    Comes backend.mapper (do
      readSynchronously backend
      answer) s ((backend.device.readNow s.1 s.2.device).map .finish id) := by
  unfold Comes Device.readNow
  cases h : backend.device.syncRead s.1.fd s.1.kernelBuffer s.1.count s.2.device with
  | mk got d =>
    cases got with
    | ok n =>
      have hrun : (readSynchronously backend).Reduces (finish backend.mapper (.ok n)) s
          (withDevice s d) :=
        (current_gives s).bind_reduces ((onDevice_eq h).bind_reduces (.refl _ _))
      exact hrun.bind _
    | error cause =>
      have hrun : (readSynchronously backend).Reduces
          (finish backend.mapper (.error (.device cause))) s (withDevice s d) :=
        (current_gives s).bind_reduces ((onDevice_eq h).bind_reduces (.refl _ _))
      exact hrun.bind _

theorem poll_comes (backend : Backend δ μ) (s : Read × IoWorld δ μ) :
    Comes backend.mapper (poll backend) s (backend.device.pollMove s.1 s.2.device) := by
  unfold Comes poll Device.pollMove
  refine (current_gives s).bind_reduces ?_
  cases hstate : s.1.state with
  | notStarted =>
    have start : ∀ d, Op.Reduces (do
        setState .ready
        Op.record (.read (.ready s.1.fd))
        answer) (settle backend.mapper (.wait .ready)) (withDevice s d) (withDevice s d) :=
      fun d events => ⟨events.push _, rfl, .push events (by rintro ⟨⟩)⟩
    by_cases hzero : s.1.count = 0
    · have hmay : (mayStart backend s.1).Gives s true s := by
        unfold mayStart
        rw [if_pos hzero]
        exact Op.pure_gives _
      rw [if_pos hzero]
      exact hmay.bind_reduces (start s.2.device)
    · rw [if_neg hzero]
      cases hbusy : backend.device.busy s.1.fd s.2.device with
      | mk busy d =>
        have hmay : (mayStart backend s.1).Gives s (!busy) (withDevice s d) := by
          unfold mayStart
          rw [if_neg hzero]
          exact (onDevice_eq hbusy).bind_gives (Op.pure_gives _)
        refine hmay.bind_reduces ?_
        cases busy with
        | true => exact comes_stay hstate
        | false => exact start d
  | inProgress =>
    cases hready : backend.device.bytesReady s.1.fd s.2.device with
    | mk got d =>
      refine (onDevice_eq hready).bind_reduces ?_
      cases got with
      | ok n =>
        dsimp only
        split
        · exact advance_comes backend.device s.1.fd n (withDevice s d)
        · split
          · exact .refl _ _
          · exact (Op.record_gives (by rintro ⟨⟩)).bind_reduces (comes_stay hstate)
      | error cause => exact .refl _ _
  | ready => exact comes_stay (d := s.2.device) hstate
  | done => exact comes_stay (d := s.2.device) hstate
  | failed => exact comes_stay (d := s.2.device) hstate

theorem issue_comes (backend : Backend δ μ) (s : Read × IoWorld δ μ) :
    Comes backend.mapper (issue backend) s
      (backend.device.issueMove backend.asyncReads s.1 s.2.device) := by
  unfold Comes issue Device.issueMove
  refine (current_gives s).bind_reduces ?_
  dsimp only
  split
  · split
    · exact .refl _ _
    · split
      · cases hissue : backend.device.issue s.1.fd s.1.kernelBuffer s.1.count s.2.device with
        | mk got d =>
          refine (onDevice_eq hissue).bind_reduces ?_
          cases got with
          | ok taken =>
            cases taken with
            | notSupported =>
              refine (Op.record_gives (by rintro ⟨⟩)).bind_reduces ?_
              exact readSynchronously_comes backend (withDevice s d)
            | accepted =>
              exact fun events => ⟨events.push _, rfl, .push events (by rintro ⟨⟩)⟩
            | immediate n =>
              dsimp only
              split
              · exact .refl _ _
              · refine (Op.record_gives (by rintro ⟨⟩)).bind_reduces ?_
                exact advance_comes backend.device s.1.fd n (withDevice s d)
          | error cause => exact .refl _ _
      · exact readSynchronously_comes backend s
  · exact comes_stay (d := s.2.device) rfl

theorem settle_wait_gives (state : ReadState) (s : Read × IoWorld δ μ) :
    (settle mapper (.wait state)).Gives s state ({ s.1 with state }, s.2) :=
  fun events => ⟨events, rfl, .refl events⟩

/-- Whatever the mapper makes of a loan it is asked to take back, `back` holds then. -/
def Returns (gap : Prop) (mapper : AliasMapper μ) (back : μ → Prop) (m : μ) :
    Option Loan → Prop
  | none => back m
  | some loan => (mapper.takeBack loan.base loan.span).run.Leads gap m fun _ m' => back m'

theorem returns_any (m : μ) (loan : Option Loan) :
    Returns True mapper (fun _ => True) m loan := by
  cases loan with
  | none => trivial
  | some loan => exact Op.leads_any _ _

variable {gap : Prop} {back : μ → Prop} {s : Read × IoWorld δ μ}

theorem releaseLoan_leads (h : Returns gap mapper back s.2.mapper s.1.loan) :
    (releaseLoan mapper).Leads gap s fun _ t =>
      t = ({ s.1 with loan := none }, ⟨s.2.device, t.2.mapper, s.2.slots⟩) ∧ back t.2.mapper := by
  obtain ⟨r, ⟨d, m, slots⟩⟩ := s
  unfold releaseLoan
  refine (Op.update_gives _).bind_leads ?_
  dsimp only at h ⊢
  cases hloan : r.loan with
  | none =>
    rw [hloan] at h
    exact (Op.pure_gives _).leads ⟨rfl, h⟩
  | some loan =>
    rw [hloan] at h
    refine Op.Leads.bind (m := fun _ t => t = ({ r with loan := none }, ⟨d, t.2.mapper, slots⟩) ∧
      back t.2.mapper) (Op.zoom_leads mapperPart (Op.Leads.mono h fun _ _ h => ⟨rfl, h⟩)) ?_
    intro a t ht
    cases a with
    | ok u => exact (Op.pure_gives _).leads ht
    | error cause => exact (current_gives t).bind_leads (Op.record_leads _ ht)

theorem resolve_leads (result : ReadResult) (s : Read × IoWorld δ μ) :
    (resolve result).Leads gap s fun _ t =>
      t = (s.1, ⟨s.2.device, s.2.mapper, (s.2.slots.resolve s.1.slot result).2⟩) := by
  unfold resolve
  refine (Op.update_gives _).bind_leads ?_
  split
  · exact Op.record_leads _ rfl
  · exact (Op.pure_gives _).leads rfl

theorem finish_leads (h : Returns gap mapper back s.2.mapper s.1.loan) (result : ReadResult) :
    (finish mapper result).Leads gap s fun _ t =>
      t = ({ s.1 with loan := none, state := .of result },
        ⟨s.2.device, t.2.mapper, (s.2.slots.resolve s.1.slot result).2⟩) ∧ back t.2.mapper := by
  unfold finish
  refine (releaseLoan_leads h).bind ?_
  rintro - t ⟨ht, hback⟩
  refine (current_gives t).bind_leads ?_
  cases result with
  | ok n =>
    refine (setState_gives .done t).bind_leads (Op.record_bind_leads _ ?_)
    refine (resolve_leads _ _).mono ?_
    rintro - u rfl
    rw [ht]
    exact ⟨rfl, hback⟩
  | error cause =>
    refine (setState_gives .failed t).bind_leads (Op.record_bind_leads _ ?_)
    refine (resolve_leads _ _).mono ?_
    rintro - u rfl
    rw [ht]
    exact ⟨rfl, hback⟩

inductive Makes (back : μ → Prop) (s : Read × IoWorld δ μ) : Move → Read × IoWorld δ μ → Prop
  | wait (state : ReadState) : Makes back s (.wait state) ({ s.1 with state }, s.2)
  | finish (result : ReadResult) {m : μ} (h : back m) :
      Makes back s (.finish result) ({ s.1 with loan := none, state := .of result },
        ⟨s.2.device, m, (s.2.slots.resolve s.1.slot result).2⟩)

theorem Makes.state {move : Move} {t : Read × IoWorld δ μ} (h : Makes back s move t) :
    t.1.state = move.state := by
  cases h <;> rfl

theorem Makes.fd {move : Move} {t : Read × IoWorld δ μ} (h : Makes back s move t) :
    t.1.fd = s.1.fd := by
  cases h <;> rfl

theorem Makes.device {move : Move} {t : Read × IoWorld δ μ} (h : Makes back s move t) :
    t.2.device = s.2.device := by
  cases h <;> rfl

theorem finish_makes (h : Returns gap mapper back s.2.mapper s.1.loan) (result : ReadResult) :
    (finish mapper result).Leads gap s fun _ t => Makes back s (.finish result) t := by
  refine (finish_leads h result).mono ?_
  rintro - t ⟨ht, hback⟩
  rw [ht]
  exact .finish result hback

theorem settle_leads (h : Returns gap mapper back s.2.mapper s.1.loan) (move : Move) :
    (settle mapper move).Leads gap s fun state t =>
      state = t.1.state ∧ Makes back s move t := by
  cases move with
  | wait state => exact (settle_wait_gives state s).leads ⟨rfl, .wait state⟩
  | finish result =>
    refine (finish_makes h result).bind fun _ t ht => ?_
    exact (current_gives t).bind_leads ((Op.pure_gives _).leads ⟨rfl, ht⟩)

theorem Comes.leads {x : Op (Read × IoWorld δ μ) ReadState} {move : Move × δ}
    (hx : Comes mapper x s move) (h : Returns gap mapper back s.2.mapper s.1.loan) :
    x.Leads gap s fun state t => state = t.1.state ∧ Makes back (withDevice s move.2) move.1 t := by
  refine Op.Reduces.leads hx (settle_leads ?_ _)
  exact h

theorem cancel_leads (h : Returns gap mapper back s.2.mapper s.1.loan) :
    (cancel mapper).Leads gap s fun ended t => ended = !s.1.state.isTerminal ∧
      Makes back s s.1.cancelMove t := by
  unfold cancel cancelMove
  refine (current_gives s).bind_leads ?_
  split
  · next hstate => exact (Op.pure_gives _).leads ⟨by rw [hstate]; rfl, .wait s.1.state⟩
  · next hstate =>
    refine (finish_makes h _).bind fun _ t ht => ?_
    exact (Op.pure_gives _).leads ⟨by rw [Bool.eq_false_iff.mpr hstate]; rfl, ht⟩

end Read

namespace ReadQueue

variable {δ μ : Type}

theorem drive_comes (backend : Backend δ μ) (s : Read × IoWorld δ μ) :
    ∃ state : ReadState, state.isTerminal = s.1.state.isTerminal ∧
      (drive backend).Reduces
        (Read.settle backend.mapper
          (backend.device.driveMove backend.asyncReads s.1 s.2.device).1) s
        (Read.withDevice ({ s.1 with state }, s.2)
          (backend.device.driveMove backend.asyncReads s.1 s.2.device).2) := by
  have hpoll := (Read.poll_comes backend s).bind fun state =>
    if state = .ready then Read.issue backend else pure state
  unfold drive Device.driveMove
  cases hmove : backend.device.pollMove s.1 s.2.device with
  | mk move d =>
    rw [hmove] at hpoll
    cases move with
    | wait state =>
      by_cases hready : state = .ready
      · subst hready
        have hfrom := backend.device.pollMove_from s.1 s.2.device
        rw [hmove] at hfrom
        refine ⟨.ready, hfrom.isTerminal_eq, ?_⟩
        refine hpoll.trans ((Read.settle_wait_gives .ready _).bind_reduces ?_)
        exact Read.issue_comes backend ({ s.1 with state := .ready }, ⟨d, s.2.mapper, s.2.slots⟩)
      · refine ⟨s.1.state, rfl, hpoll.trans ((Read.settle_wait_gives state _).bind_reduces ?_)⟩
        rw [if_neg hready]
        dsimp only
        rw [if_neg hready]
        exact fun events => ⟨events, rfl, .refl events⟩
    | finish result =>
      refine ⟨s.1.state, rfl, hpoll.trans (Op.Leads.bind_pure ?_)⟩
      refine (Read.settle_leads (Read.returns_any _ _) (.finish result)).mono ?_
      rintro state t ⟨rfl, ht⟩
      rw [ht.state]
      cases result <;> rfl

theorem drive_leads {gap : Prop} {back : μ → Prop} {backend : Backend δ μ}
    {s : Read × IoWorld δ μ}
    (h : Read.Returns gap backend.mapper back s.2.mapper s.1.loan) :
    (drive backend).Leads gap s fun state t => state = t.1.state ∧ Read.Makes back
      (Read.withDevice s (backend.device.driveMove backend.asyncReads s.1 s.2.device).2)
      (backend.device.driveMove backend.asyncReads s.1 s.2.device).1 t := by
  obtain ⟨state, -, hdrive⟩ := drive_comes backend s
  have hsettle := Read.settle_leads (s := Read.withDevice ({ s.1 with state }, s.2)
    (backend.device.driveMove backend.asyncReads s.1 s.2.device).2) h
    (backend.device.driveMove backend.asyncReads s.1 s.2.device).1
  refine hdrive.leads (hsettle.mono ?_)
  rintro answer t ⟨rfl, ht⟩
  refine ⟨rfl, ?_⟩
  revert ht
  generalize (backend.device.driveMove backend.asyncReads s.1 s.2.device).1 = move
  intro ht
  cases ht with
  | wait state => exact .wait state
  | finish result h => exact .finish result h

end ReadQueue
end PagedKernel
