import PagedKernel.Proofs.Io.Visits

/-! The turns of a pass over the queue. Every read has one turn, in the order of the
queue: it is skipped, or it is polled and makes its calls on the device. -/

namespace PagedKernel.ReadQueue

structure Job where
  number : Nat
  entry : QueueEntry

namespace Job

def fd (job : Job) : Fd :=
  job.entry.read.fd

def state (job : Job) : ReadState :=
  job.entry.read.state

end Job

/-- What a pass makes of a job, which is given as it was before its turn. -/
inductive Turn where
  | skipped (job : Job)
  | polled (job : Job) (calls : List DeviceCall) (after : QueueEntry)

namespace Turn

def job : Turn → Job
  | skipped job => job
  | polled job .. => job

def isPolled : Turn → Bool
  | skipped _ => false
  | polled .. => true

def ended : Turn → Bool
  | skipped _ => false
  | polled _ _ after => after.read.state.isTerminal

def kept? : Turn → Option Job
  | skipped job => some job
  | polled job _ after => if after.read.state.isTerminal then none else some ⟨job.number, after⟩

def made : Turn → List (Nat × DeviceCall)
  | skipped _ => []
  | polled job calls _ => calls.map (job.number, ·)

end Turn

variable {δ μ : Type} {backend : Backend δ μ} {w w' : RecordedWorld δ μ} {job : Job}
  {calls : List DeviceCall} {after : QueueEntry} {claimed : List Fd} {jobs : List Job}
  {turns : List Turn}

structure Polls (backend : Backend δ μ) (w : RecordedWorld δ μ) (job : Job)
    (calls : List DeviceCall) (after : QueueEntry) (w' : RecordedWorld δ μ) : Prop where
  run : ∃ events later, drive backend.recorded ⟨(job.entry.read, w), events⟩ =
    .ok after.read.state ⟨(after.read, w'), later⟩
  pid : after.pid = job.entry.pid
  calls : w'.device.calls = w.device.calls ++ calls

namespace Polls

theorem of_run {events later : Array Event} {state : ReadState} (hpid : after.pid = job.entry.pid)
    (hrun : drive backend.recorded ⟨(job.entry.read, w), events⟩ =
      .ok state ⟨(after.read, w'), later⟩) :
    state = after.read.state ∧ ∃ calls, Polls backend w job calls after w' := by
  obtain ⟨hstate, hmakes⟩ := (drive_leads (Read.returns_any _ _)).post hrun
  obtain ⟨calls, hcalls, -⟩ :=
    backend.device.driveMove_extends backend.asyncReads job.entry.read w.device
  refine ⟨hstate, calls, ⟨events, later, hstate ▸ hrun⟩, hpid, ?_⟩
  rw [← hcalls]
  exact congrArg Recorded.calls hmakes.device

theorem makes (h : Polls backend w job calls after w') :
    Read.Makes (fun _ => True) (Read.withDevice (job.entry.read, w)
        (backend.recorded.device.driveMove backend.asyncReads job.entry.read w.device).2)
      (backend.recorded.device.driveMove backend.asyncReads job.entry.read w.device).1
      (after.read, w') := by
  obtain ⟨events, later, hrun⟩ := h.run
  exact ((drive_leads (Read.returns_any _ _)).post hrun).2

theorem fd (h : Polls backend w job calls after w') : after.read.fd = job.fd :=
  h.makes.fd

theorem calls_fd (h : Polls backend w job calls after w') : ∀ c ∈ calls, c.fd = job.fd := by
  obtain ⟨made, hmade, hfd⟩ :=
    backend.device.driveMove_extends backend.asyncReads job.entry.read w.device
  have hdevice := congrArg Recorded.calls h.makes.device
  have hsame : calls = made := by
    rw [h.calls] at hdevice
    exact List.append_cancel_left (hdevice.trans hmade)
  rw [hsame]
  exact hfd

theorem rests (h : Polls backend w job calls after w')
    (hs : job.state = .notStarted ∨ job.state = .inProgress)
    (hwait : after.read.state.isTerminal = false) :
    after.read.state = .notStarted ∨ after.read.state = .inProgress := by
  have hmove := h.makes.state
  rw [hmove] at hwait ⊢
  cases hm : (backend.recorded.device.driveMove backend.asyncReads job.entry.read w.device).1 with
  | wait state => exact backend.recorded.device.driveMove_rests backend.asyncReads hs hm
  | finish result =>
    rw [hm] at hwait
    cases result <;> cases hwait

end Polls

/-- The turns of a pass over some jobs, while the descriptors `claimed` are occupied by
earlier ones. -/
inductive Turns (backend : Backend δ μ) :
    List Fd → RecordedWorld δ μ → List Job → List Turn → RecordedWorld δ μ → Prop
  | done (claimed : List Fd) (w : RecordedWorld δ μ) : Turns backend claimed w [] [] w
  | skip {claimed : List Fd} {w w' : RecordedWorld δ μ} {job : Job} {jobs : List Job}
    {turns : List Turn} (hfd : job.fd ∈ claimed) (h : Turns backend claimed w jobs turns w') :
    Turns backend claimed w (job :: jobs) (.skipped job :: turns) w'
  | wait {claimed : List Fd} {w w₁ w' : RecordedWorld δ μ} {job : Job} {jobs : List Job}
    {calls : List DeviceCall} {after : QueueEntry} {turns : List Turn} (hfd : job.fd ∉ claimed)
    (hpoll : Polls backend w job calls after w₁) (hstate : after.read.state.isTerminal = false)
    (h : Turns backend (job.fd :: claimed) w₁ jobs turns w') :
    Turns backend claimed w (job :: jobs) (.polled job calls after :: turns) w'
  | finish {claimed : List Fd} {w w₁ w' : RecordedWorld δ μ} {job : Job} {jobs : List Job}
    {calls : List DeviceCall} {after : QueueEntry} {turns : List Turn} (hfd : job.fd ∉ claimed)
    (hpoll : Polls backend w job calls after w₁) (hstate : after.read.state.isTerminal = true)
    (h : Turns backend claimed w₁ jobs turns w') :
    Turns backend claimed w (job :: jobs) (.polled job calls after :: turns) w'

namespace Turns

theorem jobs_eq (h : Turns backend claimed w jobs turns w') : turns.map Turn.job = jobs := by
  induction h with
  | done => rfl
  | skip _ _ ih => exact congrArg (List.cons _) ih
  | wait _ _ _ _ ih => exact congrArg (List.cons _) ih
  | finish _ _ _ _ ih => exact congrArg (List.cons _) ih

/-- A job is polled unless its descriptor was claimed before the pass, or an earlier job on
the descriptor goes on after its turn. -/
theorem isPolled_iff (h : Turns backend claimed w jobs turns w') {before later : List Turn}
    {turn : Turn} (hturns : turns = before ++ turn :: later) :
    turn.isPolled = true ↔ turn.job.fd ∉ claimed ∧
      ∀ x ∈ before, x.job.fd = turn.job.fd → x.ended = true := by
  induction h generalizing before with
  | done => cases before <;> cases hturns
  | @skip claimed _ _ job _ _ hfd _ ih =>
    cases before with
    | nil =>
      cases hturns
      exact iff_of_false Bool.false_ne_true fun h => h.1 hfd
    | cons x before =>
      obtain ⟨rfl, hrest⟩ := List.cons.inj hturns
      refine (ih hrest).trans (and_congr_right fun hne => ?_)
      rw [List.forall_mem_cons, and_iff_right]
      exact fun hsame => absurd (hsame ▸ hfd) hne
  | @wait claimed _ _ _ job _ _ after _ hfd hpoll hstate _ ih =>
    cases before with
    | nil =>
      cases hturns
      exact iff_of_true rfl ⟨hfd, nofun⟩
    | cons x before =>
      obtain ⟨rfl, hrest⟩ := List.cons.inj hturns
      have hhead : (job.fd = turn.job.fd → after.read.state.isTerminal = true) ↔
          ¬ turn.job.fd = job.fd := by
        rw [hstate, eq_comm]
        simp
      rw [ih hrest, List.forall_mem_cons, List.mem_cons, not_or, and_assoc, and_left_comm]
      exact and_congr_right fun _ => and_congr_left fun _ => hhead.symm
  | @finish claimed _ _ _ job _ _ after _ hfd hpoll hstate _ ih =>
    cases before with
    | nil =>
      cases hturns
      exact iff_of_true rfl ⟨hfd, nofun⟩
    | cons x before =>
      obtain ⟨rfl, hrest⟩ := List.cons.inj hturns
      rw [ih hrest, List.forall_mem_cons]
      exact and_congr_right fun _ => (and_iff_right fun _ => hstate).symm

theorem calls_eq (h : Turns backend claimed w jobs turns w') :
    w'.device.calls = w.device.calls ++ (turns.flatMap Turn.made).map Prod.snd := by
  induction h with
  | done => exact (List.append_nil _).symm
  | skip _ _ ih => exact ih
  | wait _ hpoll _ _ ih => rw [ih, hpoll.calls]; simp [Turn.made, Function.comp_def]
  | finish _ hpoll _ _ ih => rw [ih, hpoll.calls]; simp [Turn.made, Function.comp_def]

end Turns

structure Passes (backend : Backend δ μ) (jobs : List Job) (s : ReadQueue × RecordedWorld δ μ)
    (turns : List Turn) (t : ReadQueue × RecordedWorld δ μ) : Prop where
  served : Turns backend [] s.2 jobs turns t.2
  kept : t.1.entries = (turns.filterMap Turn.kept?).map Job.entry

theorem pollEntries_leads (claimed : List Fd) (ended : List Completion) (jobs : List Job)
    (s : ReadQueue × RecordedWorld δ μ) :
    (pollEntries backend.recorded claimed ended (jobs.map Job.entry)).Leads True s fun _ t =>
      ∃ turns, Turns backend claimed s.2 jobs turns t.2 ∧
        t.1.entries = s.1.entries ++ (turns.filterMap Turn.kept?).map Job.entry := by
  induction jobs generalizing claimed ended s with
  | nil => exact (Op.pure_gives _).leads ⟨[], .done _ _, (List.append_nil _).symm⟩
  | cons job jobs ih =>
    rw [List.map_cons, pollEntries]
    split
    · next hfd =>
      refine (keep_gives job.entry s).bind_leads ((ih claimed ended _).mono ?_)
      rintro - t ⟨turns, hturns, hentries⟩
      refine ⟨_, .skip hfd hturns, ?_⟩
      rw [hentries, List.append_assoc]
      rfl
    · next hfd =>
      refine (withRead_leads _ (Op.leads_run _ _)).bind ?_
      rintro ⟨state, after⟩ ⟨q, w⟩ ⟨rfl, hpid, events, later, hrun⟩
      dsimp only at hpid hrun ⊢
      obtain ⟨rfl, calls, hpoll⟩ := Polls.of_run hpid hrun
      split
      · next hstate =>
        refine (completionOf_leads after _).bind ?_
        rintro completion t ⟨rfl, -⟩
        refine (discard_leads after _).bind ?_
        rintro - t rfl
        refine (ih claimed _ _).mono ?_
        rintro - t ⟨turns, hturns, hentries⟩
        refine ⟨_, .finish hfd hpoll hstate hturns, ?_⟩
        rw [hentries, List.filterMap_cons_none (by rw [Turn.kept?, if_pos hstate])]
      · next hstate =>
        rw [hpoll.fd]
        refine (keep_gives after _).bind_leads ((ih _ ended _).mono ?_)
        rintro - t ⟨turns, hturns, hentries⟩
        refine ⟨_, .wait hfd hpoll (Bool.eq_false_iff.mpr hstate) hturns, ?_⟩
        rw [hentries, List.filterMap_cons_some (by rw [Turn.kept?, if_neg hstate]),
          List.append_assoc]
        rfl

theorem pollAll_leads {jobs : List Job} {s : ReadQueue × RecordedWorld δ μ}
    (hjobs : s.1.entries = jobs.map Job.entry) :
    (pollAll backend.recorded).Leads True s fun _ t =>
      ∃ turns, Passes backend jobs s turns t := by
  unfold pollAll
  refine (takeEntries_gives s).bind_leads ?_
  rw [hjobs]
  refine (pollEntries_leads [] [] jobs (empty, s.2)).bind ?_
  rintro ended t ⟨turns, hturns, hkept⟩
  have hpass : ∃ turns, Passes backend jobs s turns t := ⟨turns, hturns, hkept⟩
  split
  · exact (Op.pure_gives _).leads hpass
  · exact (Op.read_gives _).bind_leads (Op.record_bind_leads _ ((Op.pure_gives _).leads hpass))

theorem cancelEntries_leads (mapper : AliasMapper (Recorded μ LoanCall))
    (selected : QueueEntry → Bool) (ended : List Completion) (rest : List QueueEntry)
    (s : ReadQueue × RecordedWorld δ μ) :
    (cancelEntries mapper selected ended rest).Leads True s fun _ t =>
      t.1.entries = s.1.entries ++ rest.filter (!selected ·) ∧ t.2.device = s.2.device := by
  induction rest generalizing ended s with
  | nil => exact (Op.pure_gives _).leads ⟨(List.append_nil _).symm, rfl⟩
  | cons e rest ih =>
    unfold cancelEntries
    split
    · next hsel =>
      refine (withRead_leads _ (Read.cancel_leads (Read.returns_any _ _))).bind ?_
      rintro ⟨answer, after⟩ ⟨q, w⟩ ⟨rfl, -, -, hcancel⟩
      refine (completionOf_leads after _).bind ?_
      rintro completion t ⟨rfl, -⟩
      refine (discard_leads after _).bind ?_
      rintro - t rfl
      refine (ih _ _).mono ?_
      rintro - t ⟨hentries, hdevice⟩
      rw [List.filter_cons_of_neg (by rw [hsel]; exact Bool.false_ne_true)]
      exact ⟨hentries, hdevice.trans hcancel.device⟩
    · next hsel =>
      refine (keep_gives e s).bind_leads ((ih ended _).mono ?_)
      rintro - t ⟨hentries, hdevice⟩
      rw [List.filter_cons_of_pos (by rw [Bool.eq_false_iff.mpr hsel]; rfl), hentries,
        List.append_assoc]
      exact ⟨rfl, hdevice⟩

theorem cancelWhere_leads (mapper : AliasMapper (Recorded μ LoanCall))
    (selected : QueueEntry → Bool) (s : ReadQueue × RecordedWorld δ μ) :
    (cancelWhere mapper selected).Leads True s fun _ t =>
      t.1.entries = s.1.entries.filter (!selected ·) ∧ t.2.device = s.2.device := by
  unfold cancelWhere
  refine (takeEntries_gives s).bind_leads
    ((cancelEntries_leads mapper selected [] _ (empty, s.2)).bind ?_)
  rintro ended t ht
  split
  · exact (Op.pure_gives _).leads ht
  · exact Op.record_bind_leads _ ((Op.pure_gives _).leads ht)

end PagedKernel.ReadQueue
