import PagedKernel.Proofs.Io.Departures
import PagedKernel.Proofs.Io.Lifecycle

/-! A queue in use, over any device and any mapper. Reads are made, each with a slot of its
own, and are in hand until they are submitted; there they may be polled, issued and cancelled as
well. The queue is polled and reads are cancelled in any order of calls, and between two calls the
device may change at will. A journal keeps what was made, submitted and reported. -/

namespace PagedKernel

variable {δ μ : Type}

abbrev ObservedWorld (δ μ : Type) := IoWorld (Recorded δ DeviceCall) μ

def Backend.observed (backend : Backend δ μ) : Backend (Recorded δ DeviceCall) μ :=
  ⟨backend.device.recorded, backend.mapper, backend.asyncReads⟩

/-- What the mapper was asked for when a read was made, and what it lent. -/
inductive AliasMapper.Lends (mapper : AliasMapper μ) : Option Loan → μ → μ → Prop
  | nothing (m : μ) : Lends mapper none m m
  | refused {user : VirtualAddress} {length : Nat} {m m' : μ} {events later : Array Event}
    {cause : AliasError}
    (hrun : (mapper.lend user length).run ⟨m, events⟩ = .ok (.error cause) ⟨m', later⟩) :
    Lends mapper none m m'
  | lent {user base : VirtualAddress} {span : Nat} {m m' : μ} {events later : Array Event}
    (hrun : (mapper.lend user span).run ⟨m, events⟩ = .ok (.ok base) ⟨m', later⟩) :
    Lends mapper (some ⟨base, span⟩) m m'

namespace Read

theorem prepare_lends (mapper : AliasMapper μ) (fd : Fd) (user : VirtualAddress) (count : Nat)
    (slot : SlotId) (m : μ) :
    (prepare mapper fd user count slot).run.Leads True m fun answer m' =>
      mapper.Lends (answer.toOption.bind Read.loan) m m' ∧
        ∀ r, answer = .ok r → r.state = .notStarted ∧ r.slot = slot := by
  unfold prepare
  split
  · intro events
    refine ⟨.nothing m, ?_⟩
    rintro r ⟨⟩
    exact ⟨rfl, rfl⟩
  · cases hspan : checkedAdd count user.offset.toNat with
    | none => exact fun events => ⟨.nothing m, nofun⟩
    | some span =>
      refine Op.Leads.bind (Op.leads_run _ _) ?_
      rintro answer m' ⟨events, later, hrun⟩
      cases answer with
      | error cause => exact fun _ => ⟨.refused hrun, nofun⟩
      | ok base =>
        dsimp only [ExceptT.bindCont]
        cases hkernel : base.add user.offset with
        | error fault => exact fun _ => trivial
        | ok kernel =>
          intro events
          refine ⟨.lent hrun, ?_⟩
          rintro r ⟨⟩
          exact ⟨rfl, rfl⟩

namespace ReadCall

theorem move_fits {backend : Backend δ μ} {r : Read} {d : δ} (call : ReadCall) :
    (call.move backend r d).1.Fits r.state := by
  cases call with
  | poll => exact (backend.device.pollMove_from r d).fits
  | issue => exact (backend.device.issueMove_from backend.asyncReads r d).fits
  | cancel => exact r.cancelMove_fits

theorem run_moves (backend : Backend δ μ) (call : ReadCall) (s : Read × IoWorld δ μ) :
    (call.run backend).Leads (¬ backend.mapper.Answers) s fun _ t =>
      Moved backend.mapper s (call.move backend s.1 s.2.device) t :=
  (call.run_leads backend (returns_takesBack _ _ _)).mono fun _ _ h => h.2.moved

end ReadCall
end Read

/-- A queue with the reads that were made and not submitted, and the world they work in. -/
structure ReadHost (δ μ : Type) where
  queue : ReadQueue
  hand : List Read
  world : ObservedWorld δ μ

namespace ReadHost

def initial (d : δ) (m : μ) : ReadHost δ μ :=
  ⟨.empty, [], ⟨⟨d, []⟩, m, .empty⟩⟩

def reads (h : ReadHost δ μ) : List Read :=
  h.queue.entries.map (·.read) ++ h.hand

theorem reads_perm (q : ReadQueue) (before after : List Read) (r : Read)
    (world : ObservedWorld δ μ) : (reads ⟨q, before ++ r :: after, world⟩).Perm
      (r :: reads ⟨q, before ++ after, world⟩) := by
  rw [reads, reads, ← List.append_assoc, ← List.append_assoc]
  exact List.perm_middle

theorem reads_submit (q : ReadQueue) (before after : List Read) (r : Read) (pid : ProcessId)
    (world : ObservedWorld δ μ) :
    (reads ⟨⟨q.entries ++ [⟨pid, r⟩]⟩, before ++ after, world⟩).Perm
      (reads ⟨q, before ++ r :: after, world⟩) := by
  have hmiddle : (r :: (before ++ after)).Perm (before ++ r :: after) := List.perm_middle.symm
  rw [reads, reads, List.map_append, List.append_assoc]
  exact hmiddle.append_left _

/-- The reads as they were made, and as they were submitted, and what every poll and every
cancellation reported, oldest first. -/
structure Journal where
  made : List Read
  submitted : List QueueEntry
  polled : List (List Completion)
  cancelled : List (List Completion)

namespace Journal

def start : Journal :=
  ⟨[], [], [], []⟩

def make (j : Journal) (r? : Option Read) : Journal :=
  { j with made := j.made ++ r?.toList }

def submit (j : Journal) (e : QueueEntry) : Journal :=
  { j with submitted := j.submitted ++ [e] }

def poll (j : Journal) (ended : List Completion) : Journal :=
  { j with polled := j.polled ++ [ended] }

def cancel (j : Journal) (ended : List Completion) : Journal :=
  { j with cancelled := j.cancelled ++ [ended] }

end Journal

variable {backend : Backend δ μ} {m₀ : μ} {h h' : ReadHost δ μ} {j j' : Journal}

inductive Runs (backend : Backend δ μ) (m₀ : μ) : ReadHost δ μ → Journal → Prop
  | start (d : δ) : Runs backend m₀ (initial d m₀) .start
  | prepare {h : ReadHost δ μ} {j : Journal} (events : Array Event)
    {answer : Except AliasError Read} {t : Traced μ} (fd : Fd) (user : VirtualAddress) (count : Nat)
    (hrun : (Read.prepare backend.mapper fd user count h.world.slots.handOut.1).run
      ⟨h.world.mapper, events⟩ = .ok answer t) (hruns : Runs backend m₀ h j) :
    Runs backend m₀ ⟨h.queue, h.hand ++ answer.toOption.toList,
      ⟨h.world.device, t.state, h.world.slots.handOut.2⟩⟩ (j.make answer.toOption)
  | call {h : ReadHost δ μ} {j : Journal} (events : Array Event) (before : List Read) {r : Read}
    {after : List Read} {answer : ReadState ⊕ Bool} {t : Traced (Read × ObservedWorld δ μ)}
    (call : Read.ReadCall) (hhand : h.hand = before ++ r :: after)
    (hrun : call.run backend.observed ⟨(r, h.world), events⟩ = .ok answer t)
    (hruns : Runs backend m₀ h j) :
    Runs backend m₀ ⟨h.queue, before ++ t.state.1 :: after, t.state.2⟩ j
  | submit {h : ReadHost δ μ} {j : Journal} (events : Array Event) (before : List Read) {r : Read}
    {after : List Read} {t : Traced ReadQueue} (pid : ProcessId)
    (hhand : h.hand = before ++ r :: after)
    (hrun : ReadQueue.submit pid r ⟨h.queue, events⟩ = .ok () t) (hruns : Runs backend m₀ h j) :
    Runs backend m₀ ⟨t.state, before ++ after, h.world⟩ (j.submit ⟨pid, r⟩)
  | pollAll {h : ReadHost δ μ} {j : Journal} (events : Array Event) {ended : List Completion}
    {t : Traced (ReadQueue × ObservedWorld δ μ)}
    (hrun : ReadQueue.pollAll backend.observed ⟨(h.queue, h.world), events⟩ = .ok ended t)
    (hruns : Runs backend m₀ h j) :
    Runs backend m₀ ⟨t.state.1, h.hand, t.state.2⟩ (j.poll ended)
  | cancelProcess {h : ReadHost δ μ} {j : Journal} (events : Array Event)
    {ended : List Completion} {t : Traced (ReadQueue × ObservedWorld δ μ)} (pid : ProcessId)
    (hrun : ReadQueue.cancelProcess backend.mapper pid ⟨(h.queue, h.world), events⟩ = .ok ended t)
    (hruns : Runs backend m₀ h j) :
    Runs backend m₀ ⟨t.state.1, h.hand, t.state.2⟩ (j.cancel ended)
  | cancelDescriptor {h : ReadHost δ μ} {j : Journal} (events : Array Event)
    {ended : List Completion} {t : Traced (ReadQueue × ObservedWorld δ μ)} (fd : Fd)
    (hrun : ReadQueue.cancelDescriptor backend.mapper fd ⟨(h.queue, h.world), events⟩ =
      .ok ended t) (hruns : Runs backend m₀ h j) :
    Runs backend m₀ ⟨t.state.1, h.hand, t.state.2⟩ (j.cancel ended)
  | between {h : ReadHost δ μ} {j : Journal} (d : δ) (hruns : Runs backend m₀ h j) :
    Runs backend m₀ ⟨h.queue, h.hand, { h.world with device.state := d }⟩ j

inductive Change (backend : Backend δ μ) (h : ReadHost δ μ) (j : Journal) :
    ReadHost δ μ → Journal → Prop
  | prepared {r? : Option Read} {m : μ}
    (hlends : backend.mapper.Lends (r?.bind Read.loan) h.world.mapper m)
    (hnew : ∀ r, r? = some r → r.state = .notStarted ∧ r.slot = h.world.slots.handOut.1) :
    Change backend h j ⟨h.queue, h.hand ++ r?.toList,
      ⟨h.world.device, m, h.world.slots.handOut.2⟩⟩ (j.make r?)
  | called {before after : List Read} {r : Read} {t : Read × ObservedWorld δ μ}
    (call : Read.ReadCall) (hhand : h.hand = before ++ r :: after)
    (hmoved : Read.Moved backend.mapper (r, h.world)
      (call.move backend.observed r h.world.device) t) :
    Change backend h j ⟨h.queue, before ++ t.1 :: after, t.2⟩ j
  | submitted {before after : List Read} {r : Read} (pid : ProcessId)
    (hhand : h.hand = before ++ r :: after) :
    Change backend h j ⟨⟨h.queue.entries ++ [⟨pid, r⟩]⟩, before ++ after, h.world⟩
      (j.submit ⟨pid, r⟩)
  | polled {ended : List Completion} {t : ReadQueue × ObservedWorld δ μ}
    (hvisited : ReadQueue.Visited backend.mapper
      (ReadQueue.pollPass backend.observed.device backend.asyncReads [] h.queue.entries
        (h.world.device, h.world.slots)).1 (.empty, h.world) ended t)
    (hshared : (t.2.device, t.2.slots) = (ReadQueue.pollPass backend.observed.device
      backend.asyncReads [] h.queue.entries (h.world.device, h.world.slots)).2) :
    Change backend h j ⟨t.1, h.hand, t.2⟩ (j.poll ended)
  | cancelled {ended : List Completion} {t : ReadQueue × ObservedWorld δ μ}
    (selected : QueueEntry → Bool)
    (hvisited : ReadQueue.Visited backend.mapper
      (ReadQueue.cancelPass selected h.queue.entries h.world.slots).1 (.empty, h.world) ended t)
    (hdevice : t.2.device = h.world.device)
    (hslots : t.2.slots = (ReadQueue.cancelPass selected h.queue.entries h.world.slots).2) :
    Change backend h j ⟨t.1, h.hand, t.2⟩ (j.cancel ended)
  | drifted (d : δ) : Change backend h j ⟨h.queue, h.hand, { h.world with device.state := d }⟩ j

theorem Change.made_subset (hc : Change backend h j h' j') : j.made ⊆ j'.made := by
  cases hc with
  | prepared => exact List.subset_append_left _ _
  | _ => exact List.Subset.refl _

/-- What holds at the start, and is kept up by every change, holds in every run. -/
theorem Runs.invariant {P : ReadHost δ μ → Journal → Prop}
    (hstart : ∀ d, P (initial d m₀) .start)
    (hchange : ∀ {h j h' j'}, Change backend h j h' j' → P h j → P h' j')
    (hruns : Runs backend m₀ h j) : P h j := by
  induction hruns with
  | start d => exact hstart d
  | @prepare _ _ events answer _ fd user count hrun _ ih =>
    obtain ⟨hlends, hnew⟩ := (Read.prepare_lends _ _ _ _ _ _).post hrun
    refine hchange (.prepared hlends fun r hr => hnew r ?_) ih
    cases answer with
    | ok made => exact congrArg Except.ok (Option.some.inj hr)
    | error cause => cases hr
  | call events before call hhand hrun _ ih =>
    exact hchange (.called call hhand ((call.run_moves _ _).post hrun)) ih
  | submit events before pid hhand hrun _ ih =>
    cases hrun
    exact hchange (.submitted pid hhand) ih
  | pollAll events hrun _ ih =>
    obtain ⟨hvisited, hshared⟩ := (ReadQueue.pollAll_visits _).post hrun
    exact hchange (.polled hvisited hshared) ih
  | cancelProcess events pid hrun _ ih =>
    obtain ⟨hvisited, hdevice, hslots⟩ := (ReadQueue.cancelWhere_visits _ _).post hrun
    exact hchange (.cancelled _ hvisited hdevice hslots) ih
  | cancelDescriptor events fd hrun _ ih =>
    obtain ⟨hvisited, hdevice, hslots⟩ := (ReadQueue.cancelWhere_visits _ _).post hrun
    exact hchange (.cancelled _ hvisited hdevice hslots) ih
  | between d _ ih => exact hchange (.drifted d) ih

/-- Every read has a slot of its own, and was made and submitted once. -/
structure Inv (made : List Read) (submitted : List QueueEntry) (h : ReadHost δ μ) : Prop where
  numbered : (made.map Read.slot).Nodup
  handedOut : ∀ r ∈ made, r.slot < h.world.slots.cells.size
  placed : (ReadQueue.slotsOf submitted ++ h.hand.map Read.slot).Perm (made.map Read.slot)
  queued : (ReadQueue.slotsOf h.queue.entries).Sublist (ReadQueue.slotsOf submitted)
  entries : ∀ e ∈ h.queue.entries, ∃ e₀ ∈ submitted, e₀.Follows e
  submitted : ∀ e ∈ submitted, ∃ r ∈ made, r.Follows e.read
  hand : ∀ r ∈ h.hand, ∃ r₀ ∈ made, r₀.Follows r
  inStep : ∀ r ∈ h.reads, r.InStep h.world.slots

namespace Inv

variable {made : List Read} {submitted : List QueueEntry} {visits : List ReadQueue.Visit}

theorem initial (d : δ) (m : μ) : Inv [] [] (initial d m) where
  numbered := .nil
  handedOut := List.forall_mem_nil _
  placed := .refl _
  queued := .refl _
  entries := List.forall_mem_nil _
  submitted := List.forall_mem_nil _
  hand := List.forall_mem_nil _
  inStep := List.forall_mem_nil _

theorem submitted_nodup (hi : Inv made submitted h) : (ReadQueue.slotsOf submitted).Nodup :=
  (List.nodup_append.mp (hi.placed.nodup_iff.mpr hi.numbered)).1

theorem distinct (hi : Inv made submitted h) : (h.reads.map Read.slot).Nodup := by
  rw [reads, List.map_append, List.map_map]
  exact (hi.placed.nodup_iff.mpr hi.numbered).sublist (hi.queued.append (.refl _))

theorem queue_nodup (hi : Inv made submitted h) : (ReadQueue.slotsOf h.queue.entries).Nodup :=
  hi.submitted_nodup.sublist hi.queued

theorem exists_made (hi : Inv made submitted h) {r : Read} (hr : r ∈ h.reads) :
    ∃ r₀ ∈ made, r₀.Follows r := by
  rcases List.mem_append.mp hr with hr | hr
  · obtain ⟨e, he, rfl⟩ := List.mem_map.mp hr
    obtain ⟨e₀, he₀, hfollows⟩ := hi.entries e he
    obtain ⟨r₀, hr₀, hmade⟩ := hi.submitted e₀ he₀
    exact ⟨r₀, hr₀, hmade.trans hfollows.read⟩
  · exact hi.hand r hr

theorem slot_lt (hi : Inv made submitted h) {r : Read} (hr : r ∈ h.reads) :
    r.slot < h.world.slots.cells.size := by
  obtain ⟨r₀, hr₀, hfollows⟩ := hi.exists_made hr
  rw [hfollows.slot]
  exact hi.handedOut r₀ hr₀

theorem prepared (hi : Inv made submitted h) {r? : Option Read} {m : μ}
    (hnew : ∀ r, r? = some r → r.state = .notStarted ∧ r.slot = h.world.slots.handOut.1) :
    Inv (made ++ r?.toList) submitted ⟨h.queue, h.hand ++ r?.toList,
      ⟨h.world.device, m, h.world.slots.handOut.2⟩⟩ where
  numbered := by
    cases r? with
    | none => simpa using hi.numbered
    | some r =>
      rw [Option.toList_some, List.map_append, List.nodup_append]
      refine ⟨hi.numbered, List.pairwise_singleton _ _, ?_⟩
      rintro slot hslot _ hr rfl
      obtain ⟨r', hr', rfl⟩ := List.mem_map.mp hslot
      have hlt := hi.handedOut r' hr'
      rw [List.mem_singleton.mp hr, (hnew r rfl).2] at hlt
      exact absurd hlt (Nat.lt_irrefl _)
  handedOut := by
    intro r hr
    rw [Slots.handOut, Array.size_push]
    rcases List.mem_append.mp hr with hr | hr
    · exact Nat.lt_succ_of_lt (hi.handedOut r hr)
    · rw [(hnew r (Option.mem_toList.mp hr)).2]
      exact Nat.lt_succ_self _
  placed := by
    rw [List.map_append, List.map_append, ← List.append_assoc]
    exact hi.placed.append_right _
  queued := hi.queued
  entries := hi.entries
  submitted := by
    intro e he
    obtain ⟨r, hr, hfollows⟩ := hi.submitted e he
    exact ⟨r, List.mem_append_left _ hr, hfollows⟩
  hand := by
    intro r hr
    rcases List.mem_append.mp hr with hr | hr
    · obtain ⟨r₀, hr₀, hfollows⟩ := hi.hand r hr
      exact ⟨r₀, List.mem_append_left _ hr₀, hfollows⟩
    · exact ⟨r, List.mem_append_right _ hr, .refl r⟩
  inStep := by
    intro r hr
    rw [reads, ← List.append_assoc] at hr
    rcases List.mem_append.mp hr with hr | hr
    · exact (hi.inStep r hr).congr (Slots.cell_handOut (hi.slot_lt hr))
    · obtain ⟨hstate, hslot⟩ := hnew r (Option.mem_toList.mp hr)
      refine ⟨fun _ => ?_, fun hover => ?_⟩
      · rw [hslot]
        exact h.world.slots.open_handOut
      · rw [hstate] at hover
        cases hover

theorem called {q : ReadQueue} {before after : List Read} {r : Read} {world : ObservedWorld δ μ}
    (hi : Inv made submitted ⟨q, before ++ r :: after, world⟩) {move : Move}
    {t : Read × ObservedWorld δ μ} (hfits : move.Fits r.state)
    (hmade : (t.1, t.2.slots) = move.make r world.slots) :
    Inv made submitted ⟨q, before ++ t.1 :: after, t.2⟩ := by
  have hread : t.1 = (move.make r world.slots).1 := congrArg Prod.fst hmade
  have hslots : t.2.slots = (move.make r world.slots).2 := congrArg Prod.snd hmade
  have hr := (reads_perm q before after r world).mem_iff.mpr List.mem_cons_self
  have hfollows : r.Follows t.1 := hread ▸ Read.make_follows _ _ _
  refine ⟨hi.numbered, ?_, ?_, hi.queued, hi.entries, hi.submitted, ?_, ?_⟩
  · dsimp only
    rw [hslots, Move.make_size]
    exact hi.handedOut
  · have hplaced := hi.placed
    rw [List.map_append, List.map_cons] at hplaced ⊢
    rw [hfollows.slot]
    exact hplaced
  · intro r' hr'
    rcases List.mem_cons.mp (List.perm_middle.mem_iff.mp hr') with rfl | hr'
    · obtain ⟨r₀, hr₀, hmade⟩ := hi.exists_made hr
      exact ⟨r₀, hr₀, hmade.trans hfollows⟩
    · exact hi.hand r' (List.perm_middle.mem_iff.mpr (List.mem_cons_of_mem _ hr'))
  · intro r' hr'
    rcases List.mem_cons.mp ((reads_perm _ _ _ _ _).mem_iff.mp hr') with rfl | hr'
    · have hstep := (hi.inStep r hr).make hfits
      rw [← hmade] at hstep
      exact hstep
    · have hdistinct := (((reads_perm q before after r world).map Read.slot).nodup_iff.mp
        hi.distinct)
      have hne : r'.slot ≠ r.slot := by
        rintro heq
        exact (List.nodup_cons.mp hdistinct).1 (List.mem_map.mpr ⟨r', hr', heq⟩)
      have hmem := (reads_perm q before after r world).mem_iff.mpr (List.mem_cons_of_mem _ hr')
      refine (hi.inStep r' hmem).congr ?_
      dsimp only
      rw [hslots]
      exact Move.make_cell hne

theorem submit {q : ReadQueue} {before after : List Read} {r : Read} {world : ObservedWorld δ μ}
    (hi : Inv made submitted ⟨q, before ++ r :: after, world⟩) (pid : ProcessId) :
    Inv made (submitted ++ [⟨pid, r⟩])
      ⟨⟨q.entries ++ [⟨pid, r⟩]⟩, before ++ after, world⟩ where
  numbered := hi.numbered
  handedOut := hi.handedOut
  placed := by
    have hplaced := hi.placed
    refine List.Perm.trans ?_ hplaced
    rw [ReadQueue.slotsOf, List.map_append, List.append_assoc]
    exact (List.perm_middle.map Read.slot).symm.append_left _
  queued := by
    rw [ReadQueue.slotsOf, ReadQueue.slotsOf, List.map_append, List.map_append]
    exact hi.queued.append (.refl _)
  entries := by
    intro e he
    rcases List.mem_append.mp he with he | he
    · obtain ⟨e₀, he₀, hfollows⟩ := hi.entries e he
      exact ⟨e₀, List.mem_append_left _ he₀, hfollows⟩
    · exact ⟨e, List.mem_append_right _ he, .refl e⟩
  submitted := by
    intro e he
    rcases List.mem_append.mp he with he | he
    · exact hi.submitted e he
    · rw [List.mem_singleton.mp he]
      exact hi.hand r (List.perm_middle.mem_iff.mpr List.mem_cons_self)
  hand := fun r' hr' =>
    hi.hand r' (List.perm_middle.mem_iff.mpr (List.mem_cons_of_mem _ hr'))
  inStep := fun r' hr' => hi.inStep r' ((reads_submit q before after r pid world).mem_iff.mp hr')

theorem sound (hi : Inv made submitted h) {slots' : Slots}
    (hvisits : ReadQueue.Visits h.queue.entries h.world.slots visits slots') :
    ∀ v ∈ visits, v.Sound slots' :=
  hvisits.sound hi.queue_nodup fun _ he =>
    hi.inStep _ (List.mem_append_left _ (List.mem_map_of_mem he))

theorem visited (hi : Inv made submitted h) {slots' : Slots} {q : ReadQueue}
    {world : ObservedWorld δ μ}
    (hvisits : ReadQueue.Visits h.queue.entries h.world.slots visits slots')
    (hentries : q.entries = visits.filterMap ReadQueue.Visit.kept?)
    (hslots : world.slots = slots') : Inv made submitted ⟨q, h.hand, world⟩ where
  numbered := hi.numbered
  handedOut := by
    dsimp only
    rw [hslots, hvisits.size]
    exact hi.handedOut
  placed := hi.placed
  queued := by
    dsimp only
    rw [hentries]
    exact hvisits.kept_sublist.trans hi.queued
  entries := by
    dsimp only
    rw [hentries]
    intro e he
    obtain ⟨v, hv, hbefore, rfl⟩ := hvisits.exists_kept he
    obtain ⟨e₀, he₀, hfollows⟩ := hi.entries v.before hbefore
    exact ⟨e₀, he₀, hfollows.trans (hvisits.follows v hv)⟩
  submitted := hi.submitted
  hand := hi.hand
  inStep := by
    intro r hr
    dsimp only [reads] at hr ⊢
    rw [hentries] at hr
    rw [hslots]
    rcases List.mem_append.mp hr with hr | hr
    · obtain ⟨e, he, rfl⟩ := List.mem_map.mp hr
      obtain ⟨v, hv, -, rfl⟩ := hvisits.exists_kept he
      exact (hi.sound hvisits v hv).inStep
    · have hother : r.slot ∉ ReadQueue.slotsOf h.queue.entries := by
        intro hmem
        have hdistinct := hi.distinct
        rw [reads, List.map_append, List.map_map] at hdistinct
        exact (List.nodup_append.mp hdistinct).2.2 _ hmem _ (List.mem_map_of_mem hr) rfl
      exact (hi.inStep r (List.mem_append_right _ hr)).congr (hvisits.cell hother)

theorem change (hi : Inv j.made j.submitted h) (hc : Change backend h j h' j') :
    Inv j'.made j'.submitted h' := by
  cases hc with
  | prepared _ hnew => exact hi.prepared hnew
  | @called before after r t call hhand hmoved =>
    obtain ⟨q, hand, world⟩ := h
    obtain rfl : hand = before ++ r :: after := hhand
    exact hi.called call.move_fits hmoved.made
  | @submitted before after r pid hhand =>
    obtain ⟨q, hand, world⟩ := h
    obtain rfl : hand = before ++ r :: after := hhand
    exact hi.submit pid
  | polled hvisited hshared =>
    exact hi.visited (ReadQueue.pollPass_visits _ _ _ _ (_, _)) hvisited.entries
      (congrArg Prod.snd hshared)
  | cancelled selected hvisited _ hslots =>
    exact hi.visited (ReadQueue.cancelPass_visits _ _ _) hvisited.entries hslots
  | drifted d => exact ⟨hi.numbered, hi.handedOut, hi.placed, hi.queued, hi.entries, hi.submitted,
      hi.hand, hi.inStep⟩

end Inv

theorem Runs.inv (hruns : Runs backend m₀ h j) : Inv j.made j.submitted h :=
  hruns.invariant (P := fun h j => Inv j.made j.submitted h) (fun d => .initial d m₀)
    fun hc hi => hi.change hc

def aligned (fd : Fd) (user base : VirtualAddress) (count : Nat) (slot : SlotId) : Read :=
  ⟨fd, user, base, count, some ⟨base, count⟩, .notStarted, slot⟩

def threeReads : List QueueEntry :=
  [⟨⟨1⟩, aligned ⟨3⟩ (.ofBits 0x10000000) (.ofBits 0xc0000000) 8 0⟩,
    ⟨⟨2⟩, aligned ⟨4⟩ (.ofBits 0x10002000) (.ofBits 0xc0100000) 8 1⟩,
    ⟨⟨1⟩, aligned ⟨4⟩ (.ofBits 0x10004000) (.ofBits 0xc0200000) 16 2⟩]

def threeLoans : LedgerMapper.State :=
  ⟨.ofBits 0xc0300000,
    [(.ofBits 0xc0000000, 8), (.ofBits 0xc0100000, 8), (.ofBits 0xc0200000, 16)], none, false,
    #[.lend (.ofBits 0x10000000) 8, .lend (.ofBits 0x10002000) 8, .lend (.ofBits 0x10004000) 16]⟩

def threeLent (d : ScriptedDevice.State) : ObservedWorld ScriptedDevice.State LedgerMapper.State :=
  ⟨⟨d, []⟩, threeLoans, ⟨#[.empty, .empty, .empty]⟩⟩

theorem runs_threeReads (d : ScriptedDevice.State) : Runs Backend.scripted .initial
    ⟨⟨threeReads⟩, [], threeLent d⟩ ⟨threeReads.map (·.read), threeReads, [], []⟩ := by
  have hstart : Runs Backend.scripted .initial _ _ := .start .initial
  have hfirst := hstart.prepare #[] ⟨3⟩ (.ofBits 0x10000000) 8 rfl
  have hsecond := hfirst.prepare #[] ⟨4⟩ (.ofBits 0x10002000) 8 rfl
  have hthird := hsecond.prepare #[] ⟨4⟩ (.ofBits 0x10004000) 16 rfl
  have hsubmitted := hthird.submit #[] [] ⟨1⟩ rfl rfl
  have hsubmitted := hsubmitted.submit #[] [] ⟨2⟩ rfl rfl
  exact (hsubmitted.submit #[] [] ⟨1⟩ rfl rfl).between d

end ReadHost
end PagedKernel
