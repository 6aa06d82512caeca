import PagedKernel.Proofs.Io.LiveLoans

/-! No submission is lost, reported twice or overtaken. What was submitted is in the queue or was
reported, once, by the call in which it left the queue. What stays is in the order of submission,
and so is what leaves in one call, and what leaves one descriptor in all polls. -/

namespace PagedKernel

variable {δ μ : Type}

namespace ReadQueue

theorem cancelPass_returned (selected : QueueEntry → Bool) {es : List QueueEntry}
    (hes : ∀ e ∈ es, e.read.state.isTerminal = true → e.read.loan = none) (slots : Slots) :
    (cancelPass selected es slots).1.flatMap Visit.returned =
      Read.loansOf ((es.filter selected).map (·.read)) := by
  induction es generalizing slots with
  | nil => rfl
  | cons e rest ih =>
    obtain ⟨he, hes⟩ := List.forall_mem_cons.mp hes
    rw [cancelPass]
    split
    · next hsel =>
      have hmade : (Visit.made e (e.read.cancelMove.make e.read slots)).returned =
          e.read.loan.toList := by
        dsimp only [Visit.returned, Visit.made, Read.cancelMove]
        split
        · next hover => simp [Move.make, Read.returned, he hover]
        · rfl
      rw [List.filter_cons_of_pos hsel]
      exact congrArg₂ (· ++ ·) hmade (ih hes _)
    · next hsel =>
      have hskipped : (Visit.skipped e).returned = [] := by
        cases h : e.read.loan <;> simp [Visit.returned, Visit.skipped, Read.returned, h]
      rw [List.filter_cons_of_neg hsel]
      exact congrArg₂ (· ++ ·) hskipped (ih hes _)

theorem cancelPass_cell (selected : QueueEntry → Bool) {es : List QueueEntry} {id : SlotId}
    (hid : id ∉ slotsOf (es.filter selected)) (slots : Slots) :
    (cancelPass selected es slots).2.cells[id]? = slots.cells[id]? := by
  induction es generalizing slots with
  | nil => rfl
  | cons e rest ih =>
    rw [cancelPass]
    split
    · next hsel =>
      rw [List.filter_cons_of_pos hsel] at hid
      exact (ih (List.not_mem_of_not_mem_cons hid) _).trans
        (Move.make_cell (List.ne_of_not_mem_cons hid))
    · next hsel =>
      rw [List.filter_cons_of_neg hsel] at hid
      exact ih hid slots

theorem Reported.of_follows {slots : Slots} {before after : QueueEntry} {c : Completion}
    (h : Reported slots after c) (hf : before.Follows after) : Reported slots before c :=
  ⟨h.pid.trans hf.pid, h.fd.trans hf.read.fd, hf.read.slot ▸ h.value⟩

end ReadQueue

namespace ReadHost

open ReadQueue (Departure Reported slotsOf)

variable {backend : Backend δ μ} {m₀ : μ} {h h' : ReadHost δ μ} {j j' : Journal}
  {finished dropped : List (List Departure)} {gone gone' : List Departure}

theorem Change.get? (hc : Change backend h j h' j') {id : SlotId} {value : ReadResult}
    (hvalue : h.world.slots.get? id = some value) : h'.world.slots.get? id = some value := by
  cases hc with
  | prepared =>
    obtain ⟨cell, hcell, -⟩ := Option.bind_eq_some_iff.mp hvalue
    have hlt := (Array.getElem?_eq_some_iff.mp hcell).1
    exact (Slots.get?_congr (Slots.cell_handOut hlt)).trans hvalue
  | called call _ hmoved =>
    have hslots := congrArg Prod.snd hmoved.made
    dsimp only at hslots ⊢
    rw [hslots]
    exact Move.make_get? hvalue
  | submitted => exact hvalue
  | polled _ hshared =>
    have hslots := congrArg Prod.snd hshared
    dsimp only at hslots ⊢
    rw [hslots]
    exact (ReadQueue.pollPass_visits _ _ _ _ (_, _)).get? hvalue
  | cancelled selected _ _ hslots =>
    dsimp only
    rw [hslots]
    exact (ReadQueue.cancelPass_visits _ _ _).get? hvalue
  | drifted => exact hvalue

/-- What was submitted is in the queue or among the departures, which report it. -/
structure Settled (submitted : List QueueEntry) (h : ReadHost δ μ) (gone : List Departure) :
    Prop where
  divided : (slotsOf h.queue.entries ++ gone.map Departure.slot).Perm (slotsOf submitted)
  reported : ∀ x ∈ gone, ∃ e ∈ submitted, e.read.slot = x.slot ∧
    Reported h.world.slots e x.completion

theorem Reported.later (hc : Change backend h j h' j') {e : QueueEntry} {c : Completion}
    (hr : Reported h.world.slots e c) : Reported h'.world.slots e c :=
  ⟨hr.pid, hr.fd, hc.get? hr.value⟩

namespace Settled

theorem later (hs : Settled j.submitted h gone) (hc : Change backend h j h' j')
    (hentries : slotsOf h'.queue.entries = slotsOf h.queue.entries) :
    Settled j.submitted h' gone := by
  refine ⟨hentries ▸ hs.divided, fun x hx => ?_⟩
  obtain ⟨e, he, hslot, hr⟩ := hs.reported x hx
  exact ⟨e, he, hslot, Reported.later hc hr⟩

theorem submit (hs : Settled j.submitted h gone) {e : QueueEntry} {q : ReadQueue}
    {hand : List Read} (hentries : q.entries = h.queue.entries ++ [e]) :
    Settled (j.submitted ++ [e]) ⟨q, hand, h.world⟩ gone := by
  refine ⟨?_, fun x hx => ?_⟩
  · dsimp only [slotsOf]
    rw [hentries, List.map_append, List.map_append, List.append_assoc]
    have hswap : ([e].map (·.read.slot) ++ gone.map Departure.slot).Perm
        (gone.map Departure.slot ++ [e].map (·.read.slot)) := List.perm_append_comm
    refine (hswap.append_left _).trans ?_
    rw [← List.append_assoc]
    exact hs.divided.append_right _
  · obtain ⟨e, he, hr⟩ := hs.reported x hx
    exact ⟨e, List.mem_append_left _ he, hr⟩

theorem visited (hs : Settled j.submitted h gone) (hi : Inv j.made j.submitted h)
    (hc : Change backend h j h' j') {visits : List ReadQueue.Visit}
    (hvisits : ReadQueue.Visits h.queue.entries h.world.slots visits h'.world.slots)
    (hentries : h'.queue.entries = visits.filterMap ReadQueue.Visit.kept?)
    (hgone : gone'.Perm (visits.filterMap ReadQueue.Visit.departure? ++ gone)) :
    Settled j.submitted h' gone' := by
  refine ⟨?_, fun x hx => ?_⟩
  · rw [hentries]
    refine ((hgone.map Departure.slot).append_left _).trans ?_
    rw [List.map_append, ← List.append_assoc]
    exact (hvisits.divided.append_right _).trans hs.divided
  · rcases List.mem_append.mp (hgone.mem_iff.mp hx) with hx | hx
    · obtain ⟨e, he, hslot, hr⟩ :=
        ReadQueue.Visits.exists_reported hvisits.follows (hi.sound hvisits) hx
      rw [hvisits.before_eq] at he
      obtain ⟨e₀, he₀, hfollows⟩ := hi.entries e he
      exact ⟨e₀, he₀, hfollows.read.slot.symm.trans hslot, hr.of_follows hfollows⟩
    · obtain ⟨e, he, hslot, hr⟩ := hs.reported x hx
      exact ⟨e, he, hslot, Reported.later hc hr⟩

end Settled

def departuresOn (fd : Fd) (calls : List (List Departure)) : List SlotId :=
  (calls.flatten.filter (·.completion.fd = fd)).map Departure.slot

theorem departuresOn_concat (fd : Fd) (calls : List (List Departure)) (left : List Departure) :
    departuresOn fd (calls ++ [left]) =
      departuresOn fd calls ++ (left.filter (·.completion.fd = fd)).map Departure.slot := by
  rw [departuresOn, departuresOn, List.flatten_concat, List.filter_append, List.map_append]

/-- Where the submissions went: the reads in `finished` left in a poll, those in `dropped` in a
cancellation, call by call. -/
structure Accounted (h : ReadHost δ μ) (j : Journal) (finished dropped : List (List Departure)) :
    Prop extends Settled j.submitted h (finished.flatten ++ dropped.flatten) where
  polled : j.polled = finished.map (·.map Departure.completion)
  cancelled : j.cancelled = dropped.map (·.map Departure.completion)
  inOrder : ∀ left ∈ finished ++ dropped, (left.map Departure.slot).Sublist (slotsOf j.submitted)
  /-- On one descriptor the reads left in order, and all before those that are queued. -/
  descriptorInOrder : ∀ fd, (departuresOn fd finished ++
    slotsOf (h.queue.entries.filter (·.read.fd = fd))).Sublist (slotsOf j.submitted)

namespace Accounted

theorem later (ha : Accounted h j finished dropped) (hc : Change backend h j h' j')
    (hentries : h'.queue = h.queue) (hjournal : j' = { j with made := j'.made }) :
    Accounted h' j' finished dropped := by
  rw [hjournal]
  refine ⟨ha.toSettled.later hc (hentries ▸ rfl), ha.polled, ha.cancelled, ha.inOrder, ?_⟩
  rw [hentries]
  exact ha.descriptorInOrder

theorem submit (ha : Accounted h j finished dropped) {e : QueueEntry} {q : ReadQueue}
    {hand : List Read} (hentries : q.entries = h.queue.entries ++ [e]) :
    Accounted ⟨q, hand, h.world⟩ (j.submit e) finished dropped := by
  have hlonger : (slotsOf j.submitted).Sublist (slotsOf (j.submitted ++ [e])) :=
    (List.sublist_append_left _ _).map _
  refine ⟨ha.toSettled.submit hentries, ha.polled, ha.cancelled,
    fun left hleft => (ha.inOrder left hleft).trans hlonger, fun fd => ?_⟩
  dsimp only [Journal.submit, slotsOf]
  rw [hentries, List.filter_append, List.map_append, List.map_append, ← List.append_assoc]
  exact (ha.descriptorInOrder fd).append (List.filter_sublist.map _)

theorem poll (ha : Accounted h j finished dropped) (hi : Inv j.made j.submitted h)
    {ended : List Completion} {t : ReadQueue × ObservedWorld δ μ}
    (hc : Change backend h j ⟨t.1, h.hand, t.2⟩ (j.poll ended))
    {visits : List ReadQueue.Visit}
    (hvisits : ReadQueue.Visits h.queue.entries h.world.slots visits t.2.slots)
    (hvisited : ReadQueue.Visited backend.mapper visits (.empty, h.world) ended t)
    (horder : ∀ fd, ((visits.filterMap ReadQueue.Visit.departure?).filter
        (·.completion.fd = fd)).map Departure.slot ++
      slotsOf ((visits.filterMap ReadQueue.Visit.kept?).filter (·.read.fd = fd)) =
        slotsOf (h.queue.entries.filter (·.read.fd = fd))) :
    ∃ left, Accounted ⟨t.1, h.hand, t.2⟩ (j.poll ended) (finished ++ [left]) dropped := by
  have hentries : t.1.entries = visits.filterMap ReadQueue.Visit.kept? := hvisited.entries
  refine ⟨visits.filterMap ReadQueue.Visit.departure?,
    ha.toSettled.visited hi hc hvisits hentries ?_, ?_, ha.cancelled, ?_, fun fd => ?_⟩
  · rw [List.flatten_concat, List.append_assoc]
    exact List.perm_append_comm_assoc _ _ _
  · rw [List.map_append, ← ha.polled, ReadQueue.Visits.ended_eq hvisited.ended]
    rfl
  · intro left hleft
    rcases List.mem_append.mp hleft with hleft | hleft
    · rcases List.mem_append.mp hleft with hleft | hleft
      · exact ha.inOrder left (List.mem_append_left _ hleft)
      · rw [List.mem_singleton.mp hleft]
        exact hvisits.departed_sublist.trans hi.queued
    · exact ha.inOrder left (List.mem_append_right _ hleft)
  · dsimp only
    rw [hentries, departuresOn_concat, List.append_assoc, horder fd]
    exact ha.descriptorInOrder fd

theorem cancel (ha : Accounted h j finished dropped) (hi : Inv j.made j.submitted h)
    {ended : List Completion} {t : ReadQueue × ObservedWorld δ μ}
    (hc : Change backend h j ⟨t.1, h.hand, t.2⟩ (j.cancel ended))
    {selected : QueueEntry → Bool}
    (hvisits : ReadQueue.Visits h.queue.entries h.world.slots
      (ReadQueue.cancelPass selected h.queue.entries h.world.slots).1 t.2.slots)
    (hvisited : ReadQueue.Visited backend.mapper
      (ReadQueue.cancelPass selected h.queue.entries h.world.slots).1 (.empty, h.world) ended t) :
    ∃ left, Accounted ⟨t.1, h.hand, t.2⟩ (j.cancel ended) finished (dropped ++ [left]) := by
  have hkept := (ReadQueue.cancelPass_eq selected h.queue.entries h.world.slots).2
  generalize (ReadQueue.cancelPass selected h.queue.entries h.world.slots).1 = visits
    at hvisits hvisited hkept
  have hentries : t.1.entries = visits.filterMap ReadQueue.Visit.kept? := hvisited.entries
  refine ⟨visits.filterMap ReadQueue.Visit.departure?,
    ha.toSettled.visited hi hc hvisits hentries ?_, ha.polled, ?_, ?_, fun fd => ?_⟩
  · rw [List.flatten_concat, ← List.append_assoc]
    exact List.perm_append_comm
  · rw [List.map_append, ← ha.cancelled, ReadQueue.Visits.ended_eq hvisited.ended]
    rfl
  · intro left hleft
    rw [← List.append_assoc] at hleft
    rcases List.mem_append.mp hleft with hleft | hleft
    · exact ha.inOrder left hleft
    · rw [List.mem_singleton.mp hleft]
      exact hvisits.departed_sublist.trans hi.queued
  · dsimp only
    rw [hentries, hkept]
    refine List.Sublist.trans ?_ (ha.descriptorInOrder fd)
    exact (List.Sublist.refl _).append ((List.filter_sublist.filter _).map _)

theorem change (ha : ∃ finished dropped, Accounted h j finished dropped)
    (hi : Inv j.made j.submitted h) (hc : Change backend h j h' j') :
    ∃ finished dropped, Accounted h' j' finished dropped := by
  obtain ⟨finished, dropped, ha⟩ := ha
  have hstep := hc
  cases hc with
  | prepared => exact ⟨finished, dropped, ha.later hstep rfl rfl⟩
  | called => exact ⟨finished, dropped, ha.later hstep rfl rfl⟩
  | submitted => exact ⟨finished, dropped, ha.submit rfl⟩
  | polled hvisited hshared =>
    have hvisits := ReadQueue.pollPass_visits backend.observed.device backend.asyncReads []
      h.queue.entries (h.world.device, h.world.slots)
    rw [← hshared] at hvisits
    obtain ⟨left, hleft⟩ := ha.poll hi hstep hvisits hvisited (ReadQueue.pollPass_inOrder _ _ _ _)
    exact ⟨_, _, hleft⟩
  | cancelled selected hvisited _ hslots =>
    have hvisits := ReadQueue.cancelPass_visits selected h.queue.entries h.world.slots
    rw [← hslots] at hvisits
    obtain ⟨left, hleft⟩ := ha.cancel hi hstep hvisits hvisited
    exact ⟨_, _, hleft⟩
  | drifted => exact ⟨finished, dropped, ha.later hstep rfl rfl⟩

end Accounted

theorem Runs.accounted (hruns : Runs backend m₀ h j) :
    ∃ finished dropped, Accounted h j finished dropped := by
  refine (hruns.invariant (P := fun h j => Inv j.made j.submitted h ∧
    ∃ finished dropped, Accounted h j finished dropped) (fun d => ⟨.initial d m₀, [], [], ?_⟩) ?_).2
  · exact ⟨⟨.refl _, List.forall_mem_nil _⟩, rfl, rfl, List.forall_mem_nil _, fun _ => .refl _⟩
  · rintro h j h' j' hc ⟨hi, ha⟩
    exact ⟨hi.change hc, Accounted.change ha hi hc⟩

theorem Runs.stands (hruns : Runs backend m₀ h j) : ∀ r₀ ∈ j.made,
    (∃ r ∈ h.reads, r₀.Follows r ∧ r.InStep h.world.slots) ∨
      ∃ c ∈ j.polled.flatten ++ j.cancelled.flatten,
        c.fd = r₀.fd ∧ h.world.slots.get? r₀.slot = some c.result := by
  intro r₀ hr₀
  have hi := hruns.inv
  obtain ⟨finished, dropped, ha⟩ := hruns.accounted
  have hfollows : ∀ r, (∃ r₁ ∈ j.made, r₁.Follows r) → r.slot = r₀.slot → r₀.Follows r := by
    rintro r ⟨r₁, hr₁, hr⟩ hslot
    rwa [← List.inj_on_of_nodup_map hi.numbered hr₁ hr₀ (hr.slot.symm.trans hslot)]
  rcases List.mem_append.mp (hi.placed.mem_iff.mpr (List.mem_map_of_mem hr₀)) with hmem | hmem
  · rcases List.mem_append.mp (ha.divided.mem_iff.mpr hmem) with hmem | hmem
    · obtain ⟨e, he, hslot⟩ := List.mem_map.mp hmem
      have hread : e.read ∈ h.reads := List.mem_append_left _ (List.mem_map_of_mem he)
      exact .inl ⟨e.read, hread, hfollows _ (hi.exists_made hread) hslot, hi.inStep _ hread⟩
    · obtain ⟨x, hx, hslot⟩ := List.mem_map.mp hmem
      obtain ⟨e, he, hsame, hreported⟩ := ha.reported x hx
      have hread := hfollows _ (hi.submitted e he) (hsame.trans hslot)
      refine .inr ⟨x.completion, ?_, hreported.fd.trans hread.fd, ?_⟩
      · rw [ha.polled, ha.cancelled, ← List.map_flatten, ← List.map_flatten, ← List.map_append]
        exact List.mem_map_of_mem hx
      · exact hread.slot ▸ hreported.value
  · obtain ⟨r, hr, hslot⟩ := List.mem_map.mp hmem
    have hread : r ∈ h.reads := List.mem_append_right _ hr
    exact .inl ⟨r, hread, hfollows _ (hi.hand r hr) hslot, hi.inStep _ hread⟩

/-- A cancellation takes the selected reads out of the queue, reports them and asks their loans
back. It leaves the others alone, and the device. -/
structure Cancels (mapper : AliasMapper μ) (selected : QueueEntry → Bool) (h : ReadHost δ μ)
    (ended : List Completion) (t : ReadQueue × ObservedWorld δ μ) : Prop where
  entries : t.1.entries = h.queue.entries.filter (!selected ·)
  reported : List.Forall₂ (Reported t.2.slots) (h.queue.entries.filter selected) ended
  loans : mapper.TakesBack (Read.loansOf ((h.queue.entries.filter selected).map (·.read)))
    h.world.mapper t.2.mapper
  slots : ∀ e ∈ t.1.entries,
    t.2.slots.cells[e.read.slot]? = h.world.slots.cells[e.read.slot]?
  device : t.2.device = h.world.device

theorem cancelWhere_cancels (hi : Inv j.made j.submitted h) (mapper : AliasMapper μ)
    (selected : QueueEntry → Bool) :
    (ReadQueue.cancelWhere mapper selected).Leads (¬ mapper.Answers) (h.queue, h.world)
      fun ended t => Cancels mapper selected h ended t := by
  refine (ReadQueue.cancelWhere_visits selected (h.queue, h.world)).mono ?_
  rintro ended ⟨q, world⟩ ⟨hvisited, hdevice, hslots⟩
  obtain ⟨hleft, hkept⟩ := ReadQueue.cancelPass_eq selected h.queue.entries h.world.slots
  have hvisits := ReadQueue.cancelPass_visits selected h.queue.entries h.world.slots
  have hentries : q.entries = h.queue.entries.filter (!selected ·) := hvisited.entries.trans hkept
  refine ⟨hentries, ?_, ?_, fun e he => ?_, hdevice⟩
  · dsimp only at hslots ⊢
    rw [hvisited.ended, ← hleft, hslots]
    exact ReadQueue.Visits.reported hvisits.follows (hi.sound hvisits)
  · have hmapper := hvisited.mapper
    rw [ReadQueue.cancelPass_returned] at hmapper
    · exact hmapper
    · intro e he hover
      exact ((hi.inStep e.read (List.mem_append_left _ (List.mem_map_of_mem he))).ended hover).1
  · dsimp only at hslots ⊢
    rw [hslots]
    refine ReadQueue.cancelPass_cell selected ?_ _
    rw [hentries] at he
    obtain ⟨hmem, hother⟩ := List.mem_filter.mp he
    intro hslot
    obtain ⟨e', he', heq⟩ := List.mem_map.mp hslot
    obtain ⟨hmem', hsel⟩ := List.mem_filter.mp he'
    rw [List.inj_on_of_nodup_map hi.queue_nodup hmem' hmem heq] at hsel
    rw [hsel] at hother
    cases hother

/-- How the submissions of a run stand, and what the calls on its queue come to. -/
structure Conserved (backend : Backend δ μ) (m₀ : μ) (h : ReadHost δ μ) (j : Journal) : Prop where
  accounted : ∃ finished dropped, Accounted h j finished dropped
  unshared : (slotsOf j.submitted).Nodup
  queued : ∀ e ∈ h.queue.entries, ∃ e₀ ∈ j.submitted, e₀.Follows e
  inOrder : (slotsOf h.queue.entries).Sublist (slotsOf j.submitted)
  live : ∀ sound live, backend.mapper.Books sound live → sound m₀ → live m₀ = 0 →
    live h.world.mapper =
      ↑(Read.loansOf (h.queue.entries.map (·.read)) ++ Read.loansOf h.hand)
  pollAll : (ReadQueue.pollAll backend.observed).Leads (¬ backend.mapper.Answers)
    (h.queue, h.world) fun ended t => Runs backend m₀ ⟨t.1, h.hand, t.2⟩ (j.poll ended)
  cancelProcess : ∀ pid, (ReadQueue.cancelProcess backend.mapper pid).Leads
    (¬ backend.mapper.Answers) (h.queue, h.world) fun ended t =>
      Cancels backend.mapper (·.pid = pid) h ended t ∧
        Runs backend m₀ ⟨t.1, h.hand, t.2⟩ (j.cancel ended)
  cancelDescriptor : ∀ fd, (ReadQueue.cancelDescriptor backend.mapper fd).Leads
    (¬ backend.mapper.Answers) (h.queue, h.world) fun ended t =>
      Cancels backend.mapper (·.read.fd = fd) h ended t ∧
        Runs backend m₀ ⟨t.1, h.hand, t.2⟩ (j.cancel ended)

theorem submissions_conserved (hruns : Runs backend m₀ h j) : Conserved backend m₀ h j := by
  have hi := hruns.inv
  refine ⟨hruns.accounted, hi.submitted_nodup, hi.entries, hi.queued, ?_, ?_, fun pid => ?_,
    fun fd => ?_⟩
  · intro sound live hb hsound hlive
    rw [← Read.loansOf_append]
    exact (hruns.borrows hb hsound hlive).live
  · have hpoll : (ReadQueue.pollAll backend.observed).Leads (¬ backend.observed.mapper.Answers)
        (h.queue, h.world) _ := ReadQueue.pollAll_visits _
    refine hpoll.run.mono ?_
    rintro ended t ⟨-, events, later, hrun⟩
    exact hruns.pollAll events hrun
  · refine (cancelWhere_cancels hi backend.mapper (·.pid = pid)).run.mono ?_
    rintro ended t ⟨hcancels, events, later, hrun⟩
    exact ⟨hcancels, hruns.cancelProcess events pid hrun⟩
  · refine (cancelWhere_cancels hi backend.mapper (·.read.fd = fd)).run.mono ?_
    rintro ended t ⟨hcancels, events, later, hrun⟩
    exact ⟨hcancels, hruns.cancelDescriptor events fd hrun⟩

def oneBusy : ScriptedDevice.State :=
  ⟨{}, [(⟨3⟩, { issue := some (.immediate .requested) }), (⟨4⟩, { busy := some true })], [], #[]⟩

theorem submissions_conserved_threeReads : ∃ h j, Runs Backend.scripted .initial h j ∧
    (j.submitted = threeReads ∧ j.polled = [[⟨⟨1⟩, ⟨3⟩, .ok 8⟩]] ∧
      j.cancelled = [[⟨⟨2⟩, ⟨4⟩, .error .cancelled⟩]] ∧ h.queue.entries = threeReads.drop 2) ∧
    Conserved Backend.scripted .initial h j ∧
    LedgerMapper.loans h.world.mapper =
      ↑(Read.loansOf (h.queue.entries.map (·.read)) ++ Read.loansOf h.hand) := by
  have hruns := runs_threeReads oneBusy
  have hpoll : (ReadQueue.pollAll Backend.scripted.observed).Leads
    (¬ Backend.scripted.observed.mapper.Answers) (⟨threeReads⟩, threeLent oneBusy) _ :=
      ReadQueue.pollAll_visits _
  obtain ⟨ended, ⟨⟨⟨entries⟩, world⟩, later⟩, hpoll, hvisited, hshared⟩ :=
    hpoll.answers (not_not_intro LedgerMapper.answers) #[]
  have hpolled := hruns.pollAll #[] hpoll
  obtain rfl : ended = [⟨⟨1⟩, ⟨3⟩, .ok 8⟩] := hvisited.ended
  obtain rfl : entries = threeReads.drop 1 := hvisited.entries
  have hcancel : (ReadQueue.cancelProcess Backend.scripted.mapper ⟨2⟩).Leads
    (¬ Backend.scripted.mapper.Answers) (⟨threeReads.drop 1⟩, world) _ :=
      ReadQueue.cancelWhere_visits _ _
  obtain ⟨dropped, ⟨⟨⟨entries⟩, world'⟩, later'⟩, hcancel, hcancelled, -⟩ :=
    hcancel.answers (not_not_intro LedgerMapper.answers) #[]
  have hdropped := hpolled.cancelProcess #[] ⟨2⟩ hcancel
  have hslots : world.slots = ⟨#[.ready (.ok 8), .empty, .empty]⟩ := congrArg Prod.snd hshared
  have hended := hcancelled.ended
  dsimp only at hended
  rw [hslots] at hended
  obtain rfl : dropped = [⟨⟨2⟩, ⟨4⟩, .error .cancelled⟩] := hended
  obtain rfl : entries = threeReads.drop 2 := hcancelled.entries
  have hconserved := submissions_conserved hdropped
  exact ⟨_, _, hdropped, ⟨rfl, rfl, rfl, rfl⟩, hconserved,
    hconserved.live _ _ LedgerMapper.books rfl rfl⟩

end ReadHost
end PagedKernel
