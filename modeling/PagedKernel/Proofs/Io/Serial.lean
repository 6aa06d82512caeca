import PagedKernel.Proofs.Io.Turns

/-! Reads on one descriptor are served one after the other. Submissions are numbered,
and a history keeps the number of every read in the queue and of every call on the
device. -/

namespace PagedKernel.ReadQueue

namespace Turn

variable {δ μ : Type} {backend : Backend δ μ} {turn : Turn}

def Sound (backend : Backend δ μ) : Turn → Prop
  | skipped _ => True
  | polled job calls after => ∃ w w' : RecordedWorld δ μ, Polls backend w job calls after w'

theorem made_mem (h : turn.Sound backend) {x : Nat × DeviceCall} (hx : x ∈ turn.made) :
    turn.isPolled = true ∧ x.1 = turn.job.number ∧ x.2.fd = turn.job.fd := by
  cases turn with
  | skipped => cases hx
  | polled job calls after =>
    obtain ⟨w, w', hpoll⟩ := h
    obtain ⟨c, hc, rfl⟩ := List.mem_map.mp hx
    exact ⟨rfl, rfl, hpoll.calls_fd c hc⟩

structure Keeps (turn : Turn) (kept : Job) : Prop where
  ended : turn.ended = false
  number : kept.number = turn.job.number
  fd : kept.fd = turn.job.fd
  same : turn.isPolled = false → kept = turn.job
  rests : turn.job.state = .notStarted ∨ turn.job.state = .inProgress →
    kept.state = .notStarted ∨ kept.state = .inProgress

theorem keeps (h : turn.Sound backend) {kept : Job} (hk : turn.kept? = some kept) :
    turn.Keeps kept := by
  cases turn with
  | skipped job =>
    cases hk
    exact ⟨rfl, rfl, rfl, fun _ => rfl, id⟩
  | polled job calls after =>
    obtain ⟨w, w', hpoll⟩ := h
    rw [kept?] at hk
    split at hk
    · cases hk
    · next hstate =>
      cases hk
      have hgoes := Bool.eq_false_iff.mpr hstate
      exact ⟨hgoes, rfl, hpoll.fd, by rintro ⟨⟩, fun hs => hpoll.rests hs hgoes⟩

end Turn

namespace Turns

variable {δ μ : Type} {backend : Backend δ μ} {claimed : List Fd} {w w' : RecordedWorld δ μ}
  {jobs : List Job} {turns : List Turn}

theorem sound (h : Turns backend claimed w jobs turns w') :
    ∀ turn ∈ turns, turn.Sound backend := by
  induction h with
  | done => exact nofun
  | skip _ _ ih => exact List.forall_mem_cons.mpr ⟨trivial, ih⟩
  | wait _ hpoll _ _ ih => exact List.forall_mem_cons.mpr ⟨⟨_, _, hpoll⟩, ih⟩
  | finish _ hpoll _ _ ih => exact List.forall_mem_cons.mpr ⟨⟨_, _, hpoll⟩, ih⟩

theorem job_mem (h : Turns backend claimed w jobs turns w') {turn : Turn} (ht : turn ∈ turns) :
    turn.job ∈ jobs :=
  h.jobs_eq ▸ List.mem_map_of_mem ht

theorem exists_keeps (h : Turns backend claimed w jobs turns w') {kept : Job}
    (hk : kept ∈ turns.filterMap Turn.kept?) : ∃ turn ∈ turns, turn.Keeps kept := by
  obtain ⟨turn, ht, hk⟩ := List.mem_filterMap.mp hk
  exact ⟨turn, ht, Turn.keeps (h.sound turn ht) hk⟩

theorem exists_made (h : Turns backend claimed w jobs turns w') {x : Nat × DeviceCall}
    (hx : x ∈ turns.flatMap Turn.made) : ∃ turn ∈ turns, turn.isPolled = true ∧
      x.1 = turn.job.number ∧ x.2.fd = turn.job.fd := by
  obtain ⟨turn, ht, hx⟩ := List.mem_flatMap.mp hx
  exact ⟨turn, ht, Turn.made_mem (h.sound turn ht) hx⟩

end Turns

/-- The submissions so far: those that are queued, the descriptors of all by number, and
the device calls with the number of the read they were made for, oldest first. -/
structure History where
  jobs : List Job
  submitted : List Fd
  made : List (Nat × DeviceCall)

namespace History

def submit (h : History) (e : QueueEntry) : History :=
  ⟨h.jobs ++ [⟨h.submitted.length, e⟩], h.submitted ++ [e.read.fd], h.made⟩

def pass (h : History) (turns : List Turn) : History :=
  ⟨turns.filterMap Turn.kept?, h.submitted, h.made ++ turns.flatMap Turn.made⟩

def cancel (h : History) (selected : QueueEntry → Bool) : History :=
  { h with jobs := h.jobs.filter (!selected ·.entry) }

end History

variable {δ μ : Type} {backend : Backend δ μ} {s t : ReadQueue × RecordedWorld δ μ}
  {w w' : RecordedWorld δ μ} {q : ReadQueue} {h : History} {turns : List Turn}

/-- The runs of a queue over any device and any mapper. Reads are submitted as they are
made. Between two calls device and slots may change at will, and the mapper is used for
new reads. -/
inductive Runs (backend : Backend δ μ) : ReadQueue × RecordedWorld δ μ → History → Prop
  | start (d : δ) (m : μ) (slots : Slots) :
    Runs backend (empty, ⟨⟨d, []⟩, ⟨m, []⟩, slots⟩) ⟨[], [], []⟩
  | submit {q : ReadQueue} {w : RecordedWorld δ μ} {h : History} {events : Array Event}
    {t : Traced ReadQueue} (pid : ProcessId) {r : Read} (hr : r.state = .notStarted)
    (hrun : ReadQueue.submit pid r ⟨q, events⟩ = .ok () t) (hruns : Runs backend (q, w) h) :
    Runs backend (t.state, w) (h.submit ⟨pid, r⟩)
  | pollAll {s : ReadQueue × RecordedWorld δ μ} {h : History} {events : Array Event}
    {ended : List Completion} {t : Traced (ReadQueue × RecordedWorld δ μ)} {turns : List Turn}
    (hrun : ReadQueue.pollAll backend.recorded ⟨s, events⟩ = .ok ended t)
    (hpass : Passes backend h.jobs s turns t.state) (hruns : Runs backend s h) :
    Runs backend t.state (h.pass turns)
  | cancelProcess {s : ReadQueue × RecordedWorld δ μ} {h : History} {events : Array Event}
    {ended : List Completion} {t : Traced (ReadQueue × RecordedWorld δ μ)} (pid : ProcessId)
    (hrun : ReadQueue.cancelProcess backend.recorded.mapper pid ⟨s, events⟩ = .ok ended t)
    (hruns : Runs backend s h) : Runs backend t.state (h.cancel (·.pid = pid))
  | cancelDescriptor {s : ReadQueue × RecordedWorld δ μ} {h : History} {events : Array Event}
    {ended : List Completion} {t : Traced (ReadQueue × RecordedWorld δ μ)} (fd : Fd)
    (hrun : ReadQueue.cancelDescriptor backend.recorded.mapper fd ⟨s, events⟩ = .ok ended t)
    (hruns : Runs backend s h) : Runs backend t.state (h.cancel (·.read.fd = fd))
  | between {s : ReadQueue × RecordedWorld δ μ} {h : History} (d : δ) (m : Recorded μ LoanCall)
    (slots : Slots) (hruns : Runs backend s h) :
    Runs backend (s.1, ⟨{ s.2.device with state := d }, m, slots⟩) h

/-- Reads on one descriptor are served in the order of their submission. -/
structure Serialized (s : ReadQueue × RecordedWorld δ μ) (h : History) : Prop where
  queued : s.1.entries = h.jobs.map Job.entry
  increasing : h.jobs.Pairwise (·.number < ·.number)
  numbered : ∀ job ∈ h.jobs, h.submitted[job.number]? = some job.fd
  rests : ∀ e ∈ s.1.entries, e.read.state = .notStarted ∨ e.read.state = .inProgress
  /-- Only the oldest read on a descriptor has started. -/
  oldest : s.1.entries.Pairwise fun e e' => e.read.fd = e'.read.fd → e'.read.state = .notStarted
  calls : s.2.device.calls = h.made.map Prod.snd
  owner : ∀ x ∈ h.made, h.submitted[x.1]? = some x.2.fd
  ordered : h.made.Pairwise fun x y => x.2.fd = y.2.fd → x.1 ≤ y.1
  /-- No call was made for a read while an earlier one on its descriptor is still queued. -/
  ahead : ∀ job ∈ h.jobs, ∀ x ∈ h.made, x.2.fd = job.fd → x.1 ≤ job.number

namespace Serialized

theorem job_rests (hs : Serialized s h) :
    ∀ job ∈ h.jobs, job.state = .notStarted ∨ job.state = .inProgress := by
  have hrests := hs.rests
  rw [hs.queued] at hrests
  exact fun job hjob => hrests _ (List.mem_map_of_mem hjob)

theorem job_oldest (hs : Serialized s h) :
    h.jobs.Pairwise fun a b => a.fd = b.fd → b.state = .notStarted := by
  have holdest := hs.oldest
  rw [hs.queued] at holdest
  exact List.pairwise_map.mp holdest

theorem number_lt (hs : Serialized s h) {job : Job} (hjob : job ∈ h.jobs) :
    job.number < h.submitted.length :=
  (List.getElem?_eq_some_iff.mp (hs.numbered job hjob)).1

theorem owner_lt (hs : Serialized s h) {x : Nat × DeviceCall} (hx : x ∈ h.made) :
    x.1 < h.submitted.length :=
  (List.getElem?_eq_some_iff.mp (hs.owner x hx)).1

theorem submit (hs : Serialized (q, w) h) (pid : ProcessId) {r : Read}
    (hr : r.state = .notStarted) :
    Serialized (⟨q.entries ++ [⟨pid, r⟩]⟩, w) (h.submit ⟨pid, r⟩) where
  queued := by
    have hqueued : q.entries = h.jobs.map Job.entry := hs.queued
    simp [History.submit, hqueued]
  increasing := by
    refine List.pairwise_append.mpr ⟨hs.increasing, List.pairwise_singleton _ _, ?_⟩
    intro job hjob new hnew
    rw [List.mem_singleton.mp hnew]
    exact hs.number_lt hjob
  numbered := by
    intro job hjob
    rcases List.mem_append.mp hjob with hold | hnew
    · exact (List.getElem?_append_left (hs.number_lt hold)).trans (hs.numbered job hold)
    · rw [List.mem_singleton.mp hnew]
      exact List.getElem?_concat_length
  rests := by
    intro e he
    rcases List.mem_append.mp he with hold | hnew
    · exact hs.rests e hold
    · rw [List.mem_singleton.mp hnew]
      exact .inl hr
  oldest := by
    refine List.pairwise_append.mpr ⟨hs.oldest, List.pairwise_singleton _ _, ?_⟩
    intro e _ new hnew _
    rw [List.mem_singleton.mp hnew]
    exact hr
  calls := hs.calls
  owner := fun x hx => (List.getElem?_append_left (hs.owner_lt hx)).trans (hs.owner x hx)
  ordered := hs.ordered
  ahead := by
    intro job hjob x hx hfd
    rcases List.mem_append.mp hjob with hold | hnew
    · exact hs.ahead job hold x hx hfd
    · rw [List.mem_singleton.mp hnew]
      exact Nat.le_of_lt (hs.owner_lt hx)

theorem cancel (hs : Serialized s h) (selected : QueueEntry → Bool)
    (hentries : q.entries = s.1.entries.filter (!selected ·))
    (hdevice : w'.device = s.2.device) : Serialized (q, w') (h.cancel selected) where
  queued := by
    rw [hentries, hs.queued, List.filter_map]
    rfl
  increasing := hs.increasing.filter _
  numbered := fun job hjob => hs.numbered job (List.mem_of_mem_filter hjob)
  rests := by
    rw [hentries]
    exact fun e he => hs.rests e (List.mem_of_mem_filter he)
  oldest := by
    rw [hentries]
    exact hs.oldest.filter _
  calls := (congrArg Recorded.calls hdevice).trans hs.calls
  owner := hs.owner
  ordered := hs.ordered
  ahead := fun job hjob => hs.ahead job (List.mem_of_mem_filter hjob)

end Serialized

structure Before (a b : Turn) : Prop where
  number : a.job.number < b.job.number
  state : a.job.fd = b.job.fd → b.job.state = .notStarted
  /-- If both are on one descriptor and the later one is polled, the earlier one has ended. -/
  ended : a.job.fd = b.job.fd → b.isPolled = true → a.ended = true

theorem pairwise_of_splits {α : Type} {R : α → α → Prop} {l : List α}
    (h : ∀ before x later, l = before ++ x :: later → ∀ y ∈ before, R y x) : l.Pairwise R := by
  induction l with
  | nil => exact .nil
  | cons a l ih =>
    refine .cons (fun b hb => ?_) (ih fun before x later he y hy => ?_)
    · obtain ⟨before, later, rfl⟩ := List.append_of_mem hb
      exact h (a :: before) b later rfl a List.mem_cons_self
    · exact h (a :: before) x later (by rw [he]; rfl) y (List.mem_cons_of_mem _ hy)

namespace Serialized

theorem before (hs : Serialized s h) (hturns : Turns backend [] s.2 h.jobs turns w') :
    turns.Pairwise Before := by
  have hincreasing := hs.increasing
  have holdest := hs.job_oldest
  rw [← hturns.jobs_eq, List.pairwise_map] at hincreasing holdest
  have hended : turns.Pairwise fun a b =>
      a.job.fd = b.job.fd → b.isPolled = true → a.ended = true :=
    pairwise_of_splits fun before x later he y hy hfd hpolled =>
      ((hturns.isPolled_iff he).mp hpolled).2 y hy hfd
  exact ((hincreasing.and holdest).and hended).imp fun h => ⟨h.1.1, h.1.2, h.2⟩

theorem ended_of_lt (hbefore : turns.Pairwise Before) {a b : Turn} (ha : a ∈ turns)
    (hb : b ∈ turns) (hlt : a.job.number < b.job.number) (hfd : a.job.fd = b.job.fd)
    (hpolled : b.isPolled = true) : a.ended = true := by
  have hall := List.Pairwise.forall_of_forall_of_flip (l := turns)
    (R := fun a b => a.job.number < b.job.number → a.job.fd = b.job.fd → b.isPolled = true →
      a.ended = true) (fun _ _ h => absurd h (Nat.lt_irrefl _))
    (hbefore.imp fun h _ => h.ended)
    (hbefore.imp fun h h' => absurd h' (Nat.lt_asymm h.number))
  exact hall ha hb hlt hfd hpolled

theorem kept_increasing (hs : Serialized s h)
    (hturns : Turns backend [] s.2 h.jobs turns w') :
    (turns.filterMap Turn.kept?).Pairwise (·.number < ·.number) := by
  refine List.pairwise_filterMap.mpr ((hs.before hturns).imp_of_mem ?_)
  intro a b ha hb hab k hk k' hk'
  rw [(Turn.keeps (hturns.sound a ha) hk).number, (Turn.keeps (hturns.sound b hb) hk').number]
  exact hab.number

theorem kept_oldest (hs : Serialized s h) (hturns : Turns backend [] s.2 h.jobs turns w') :
    (turns.filterMap Turn.kept?).Pairwise fun k k' => k.fd = k'.fd → k'.state = .notStarted := by
  refine List.pairwise_filterMap.mpr ((hs.before hturns).imp_of_mem ?_)
  intro a b ha hb hab k hk k' hk' hfd
  have hka := Turn.keeps (hturns.sound a ha) hk
  have hkb := Turn.keeps (hturns.sound b hb) hk'
  have hfd' : a.job.fd = b.job.fd := hka.fd.symm.trans (hfd.trans hkb.fd)
  cases hpolled : b.isPolled with
  | true => cases hka.ended.symm.trans (hab.ended hfd' hpolled)
  | false =>
    rw [hkb.same hpolled]
    exact hab.state hfd'

theorem made_ordered (hs : Serialized s h) (hturns : Turns backend [] s.2 h.jobs turns w') :
    (h.pass turns).made.Pairwise fun x y => x.2.fd = y.2.fd → x.1 ≤ y.1 := by
  refine List.pairwise_append.mpr ⟨hs.ordered, List.pairwise_flatMap.mpr ⟨?_, ?_⟩, ?_⟩
  · intro turn ht
    refine List.pairwise_of_forall_mem_list fun x hx y hy _ => Nat.le_of_eq ?_
    rw [(Turn.made_mem (hturns.sound turn ht) hx).2.1,
      (Turn.made_mem (hturns.sound turn ht) hy).2.1]
  · refine (hs.before hturns).imp_of_mem ?_
    intro a b ha hb hab x hx y hy _
    rw [(Turn.made_mem (hturns.sound a ha) hx).2.1, (Turn.made_mem (hturns.sound b hb) hy).2.1]
    exact Nat.le_of_lt hab.number
  · intro x hx y hy hfd
    obtain ⟨turn, ht, -, hnumber, hfdy⟩ := hturns.exists_made hy
    rw [hnumber]
    exact hs.ahead _ (hturns.job_mem ht) x hx (hfd.trans hfdy)

theorem made_ahead (hs : Serialized s h) (hturns : Turns backend [] s.2 h.jobs turns w') :
    ∀ k ∈ (h.pass turns).jobs, ∀ x ∈ (h.pass turns).made, x.2.fd = k.fd → x.1 ≤ k.number := by
  intro k hk x hx hfd
  obtain ⟨turn, ht, hk⟩ := hturns.exists_keeps hk
  rw [hk.number]
  rcases List.mem_append.mp hx with hold | hnew
  · exact hs.ahead _ (hturns.job_mem ht) x hold (hfd.trans hk.fd)
  · obtain ⟨other, ho, hpolled, hnumber, hfdx⟩ := hturns.exists_made hnew
    rw [hnumber]
    -- a read that goes on lets no later one on its descriptor be polled
    refine Nat.le_of_not_lt fun hlt => ?_
    have hsame : turn.job.fd = other.job.fd := hk.fd.symm.trans (hfd.symm.trans hfdx)
    cases hk.ended.symm.trans (ended_of_lt (hs.before hturns) ht ho hlt hsame hpolled)

theorem pass (hs : Serialized s h) (hpass : Passes backend h.jobs s turns t) :
    Serialized t (h.pass turns) where
  queued := hpass.kept
  increasing := hs.kept_increasing hpass.served
  numbered := by
    intro k hk
    obtain ⟨turn, ht, hk⟩ := hpass.served.exists_keeps hk
    rw [hk.number, hk.fd]
    exact hs.numbered _ (hpass.served.job_mem ht)
  rests := by
    intro e he
    rw [hpass.kept] at he
    obtain ⟨k, hk, rfl⟩ := List.mem_map.mp he
    obtain ⟨turn, ht, hk⟩ := hpass.served.exists_keeps hk
    exact hk.rests (hs.job_rests _ (hpass.served.job_mem ht))
  oldest := by
    rw [hpass.kept]
    exact List.pairwise_map.mpr (hs.kept_oldest hpass.served)
  calls := by
    refine hpass.served.calls_eq.trans ?_
    rw [hs.calls, ← List.map_append]
    rfl
  owner := by
    intro x hx
    rcases List.mem_append.mp hx with hold | hnew
    · exact hs.owner x hold
    · obtain ⟨turn, ht, -, hnumber, hfd⟩ := hpass.served.exists_made hnew
      rw [hnumber, hfd]
      exact hs.numbered _ (hpass.served.job_mem ht)
  ordered := hs.made_ordered hpass.served
  ahead := hs.made_ahead hpass.served

end Serialized

namespace Runs

theorem submitted (hruns : Runs backend (q, w) h) (pid : ProcessId) {r : Read}
    (hr : r.state = .notStarted) :
    Runs backend (⟨q.entries ++ [⟨pid, r⟩]⟩, w) (h.submit ⟨pid, r⟩) :=
  @Runs.submit δ μ backend q w h #[] _ pid r hr rfl hruns

theorem serialized (hruns : Runs backend s h) : Serialized s h := by
  induction hruns with
  | start => exact ⟨rfl, .nil, nofun, nofun, .nil, rfl, nofun, .nil, nofun⟩
  | submit pid hr hrun _ ih =>
    cases hrun
    exact ih.submit pid hr
  | pollAll _ hpass _ ih => exact ih.pass hpass
  | cancelProcess pid hrun _ ih =>
    obtain ⟨hentries, hdevice⟩ := (cancelWhere_leads _ _ _).post hrun
    exact ih.cancel _ hentries hdevice
  | cancelDescriptor fd hrun _ ih =>
    obtain ⟨hentries, hdevice⟩ := (cancelWhere_leads _ _ _).post hrun
    exact ih.cancel _ hentries hdevice
  | between d m slots _ ih =>
    exact { ih with calls := ih.calls }

end Runs

/-- In a pass every job has one turn, and is polled in it if all earlier ones on its
descriptor have ended by then. -/
theorem descriptors_serialized (hruns : Runs backend s h) :
    Serialized s h ∧ ∀ events ended t, pollAll backend.recorded ⟨s, events⟩ = .ok ended t →
      ∃ turns, Passes backend h.jobs s turns t.state ∧ Runs backend t.state (h.pass turns) ∧
        turns.map Turn.job = h.jobs ∧
        ∀ before turn later, turns = before ++ turn :: later →
          (turn.isPolled = true ↔ ∀ x ∈ before, x.job.fd = turn.job.fd → x.ended = true) := by
  have hs := hruns.serialized
  refine ⟨hs, fun events ended t hrun => ?_⟩
  obtain ⟨turns, hpass⟩ := (pollAll_leads hs.queued).post hrun
  refine ⟨turns, hpass, hruns.pollAll hrun hpass, hpass.served.jobs_eq, ?_⟩
  intro before turn later hturns
  exact (hpass.served.isPolled_iff hturns).trans (and_iff_right List.not_mem_nil)

def eightBytes (slot : SlotId) : Read :=
  ⟨⟨3⟩, .ofBits 0x10000000, .ofBits 0xc0000000, 8, some ⟨.ofBits 0xc0000000, 8⟩, .notStarted, slot⟩

theorem descriptors_serialized_eightBytes : ∃ s h, Runs Backend.scripted s h ∧
    s.1.entries.map (·.read.state) = [.inProgress, .notStarted] ∧
    Serialized s h ∧ ∀ events ended t,
      pollAll Backend.scripted.recorded ⟨s, events⟩ = .ok ended t →
      ∃ turns, Passes Backend.scripted h.jobs s turns t.state ∧
        Runs Backend.scripted t.state (h.pass turns) ∧ turns.map Turn.job = h.jobs ∧
        ∀ before turn later, turns = before ++ turn :: later →
          (turn.isPolled = true ↔ ∀ x ∈ before, x.job.fd = turn.job.fd → x.ended = true) := by
  let w : RecordedWorld ScriptedDevice.State LedgerMapper.State :=
    ⟨⟨.initial, []⟩, ⟨.initial, []⟩, .empty⟩
  have hstart : Runs Backend.scripted (empty, w) _ := .start _ _ _
  have hfirst := hstart.submitted ⟨1⟩ (r := eightBytes 0) rfl
  have hsecond := hfirst.submitted ⟨2⟩ (r := eightBytes 1) rfl
  have hpoll : ∃ ended t, pollAll Backend.scripted.recorded
      ⟨(⟨[⟨⟨1⟩, eightBytes 0⟩, ⟨⟨2⟩, eightBytes 1⟩]⟩, w), #[]⟩ = .ok ended t ∧
      t.state.1.entries.map (·.read.state) = [.inProgress, .notStarted] := ⟨_, _, rfl, rfl⟩
  obtain ⟨ended, t, hrun, hstates⟩ := hpoll
  obtain ⟨turns, hpass⟩ := (pollAll_leads hsecond.serialized.queued).post hrun
  have hruns := hsecond.pollAll hrun hpass
  exact ⟨t.state, _, hruns, hstates, descriptors_serialized hruns⟩

end PagedKernel.ReadQueue
