import PagedKernel.Proofs.Io.Pass

/-! A pass over the queue. Whatever holds of the outstanding reads, and is kept up
when one of them goes on waiting or ends, holds of those left after the pass. -/

namespace PagedKernel.ReadQueue

variable {δ μ : Type} {gap : Prop} {mapper : AliasMapper μ} {back : Read → μ → μ → Prop}
  {holds : μ → Slots → List QueueEntry → Prop} {e : QueueEntry}
  {s : ReadQueue × IoWorld δ μ}

/-- `holds` can be kept up while the reads of a queue are served one by one. -/
structure Served (mapper : AliasMapper μ) (back : Read → μ → μ → Prop)
    (holds : μ → Slots → List QueueEntry → Prop) : Prop where
  /-- A read can end, and leaves the others as `holds` says. -/
  ends : ∀ {m slots before e after}, holds m slots (before ++ e :: after) →
    (∀ (δ : Type) (d : δ), Read.Live False mapper (back e.read m) (e.read, ⟨d, m, slots⟩)) ∧
      ∀ m' result, back e.read m m' →
        holds m' (slots.resolve e.read.slot result).2 (before ++ after)
  waits : ∀ {m slots before e after} {state : ReadState}, state.isTerminal = false →
    holds m slots (before ++ e :: after) → holds m slots (before ++ e.withState state :: after)

theorem keep_gives (e : QueueEntry) (s : ReadQueue × IoWorld δ μ) :
    (keep e).Gives s () (⟨s.1.entries ++ [e]⟩, s.2) :=
  Op.modify_gives _

theorem takeEntries_gives (s : ReadQueue × IoWorld δ μ) :
    takeEntries.Gives s s.1.entries (empty, s.2) :=
  Op.update_gives _

theorem withRead_meets {α : Type} {salvage : QueueEntry → Traced (ReadQueue × IoWorld δ μ) →
      Traced (ReadQueue × IoWorld δ μ)} {x : Op (Read × IoWorld δ μ) α}
    {post : α → Read × IoWorld δ μ → Prop} (hx : x.Meets False (e.read, s.2) post) :
    (withRead e salvage x).Meets gap s fun a t =>
      a.2.pid = e.pid ∧ t.1 = s.1 ∧ post a.1 (a.2.read, t.2) := by
  obtain ⟨q, world⟩ := s
  intro events
  have h := hx events
  revert h
  simp only [withRead]
  cases x ⟨(e.read, world), events⟩ with
  | ok a t =>
    obtain ⟨⟨r, world'⟩, later⟩ := t
    exact fun h => ⟨⟨rfl, rfl, h.1⟩, h.2⟩
  | error f t => exact fun h => h.1.elim

theorem completionOf_gives {result : ReadResult} (h : s.2.slots.get? e.read.slot = some result) :
    (completionOf e).Gives s ⟨e.pid, e.read.fd, result⟩ s := by
  refine (Op.read_gives _).bind_gives ?_
  rw [h]
  exact Op.pure_gives _

theorem discard_gives {back : μ → Prop} {result : ReadResult} {r : Read}
    {world world' : IoWorld δ μ}
    (h : Read.Ends back result (r, world) (e.read, world')) : (discard e).Gives s () s := by
  have hnone : e.read.dropEvent? = none := by
    have hl : e.read.loan = none := congrArg Read.loan h.read
    rw [Read.dropEvent?, hl, Option.map_none]
  unfold discard
  rw [hnone]
  exact Op.pure_gives _

theorem drive_meets {backend : Backend δ μ} {back : μ → Prop} {s : Read × IoWorld δ μ}
    (hs : Read.Live gap backend.mapper back s) :
    (drive backend).Meets gap s fun state t => state = t.1.state ∧ Read.Steps back s t := by
  obtain ⟨state, hstate, hdrive⟩ := drive_comes backend s
  refine Read.comes_meets hs (hstate.trans hs.state) (fun state hw => ?_) hdrive
  exact (backend.device.driveMove_wait backend.asyncReads hw).trans hs.state

theorem Ends.get? {back : μ → Prop} {result : ReadResult} {s t : Read × IoWorld δ μ}
    (h : Read.Ends back result s t) (hs : s.2.slots.Open s.1.slot) :
    t.2.slots.get? t.1.slot = some result := by
  rw [h.slots, h.read]
  exact Slots.get?_resolve hs result

theorem Ends.fd {back : μ → Prop} {result : ReadResult} {s t : Read × IoWorld δ μ}
    (h : Read.Ends back result s t) : t.1.fd = s.1.fd := by
  rw [h.read]

/-- What serving the entries `rest` adds to the completions and entries of before. -/
def Serves (back : Read → μ → μ → Prop) (ended : List Completion) (rest : List QueueEntry)
    (s : ReadQueue × IoWorld δ μ) (all : List Completion) (t : ReadQueue × IoWorld δ μ) : Prop :=
  ∃ new kept, all = ended ++ new ∧ t.1.entries = s.1.entries ++ kept ∧
    Pass back s.2.mapper s.2.slots rest new kept t.2.mapper t.2.slots

theorem Serves.done (ended : List Completion) (s : ReadQueue × IoWorld δ μ) :
    Serves back ended [] s ended s :=
  ⟨[], [], by simp, by simp, .done _ _⟩

theorem Serves.keep {ended all : List Completion} {rest : List QueueEntry}
    {t : ReadQueue × IoWorld δ μ} {state : ReadState} (hstate : state.isTerminal = false)
    {world : IoWorld δ μ} (hm : world.mapper = s.2.mapper) (hsl : world.slots = s.2.slots)
    (h : Serves back ended rest (⟨s.1.entries ++ [e.withState state]⟩, world) all t) :
    Serves back ended (e :: rest) s all t := by
  obtain ⟨new, kept, hall, hentries, hpass⟩ := h
  refine ⟨new, e.withState state :: kept, hall, by rw [hentries, List.append_assoc]; rfl, ?_⟩
  dsimp only at hpass
  rw [hm, hsl] at hpass
  exact .keep hstate hpass

theorem Serves.keep_same {ended all : List Completion} {rest : List QueueEntry}
    {t : ReadQueue × IoWorld δ μ} (hstate : e.read.state.isTerminal = false)
    (h : Serves back ended rest (⟨s.1.entries ++ [e]⟩, s.2) all t) :
    Serves back ended (e :: rest) s all t := by
  have hkept : Serves back ended rest (⟨s.1.entries ++ [e.withState e.read.state]⟩, s.2) all t := h
  exact .keep hstate rfl rfl hkept

theorem Serves.finish {ended all : List Completion} {rest : List QueueEntry}
    {t : ReadQueue × IoWorld δ μ} {result : ReadResult} {r : Read} {world : IoWorld δ μ}
    (hopen : s.2.slots.Open e.read.slot)
    (he : Read.Ends (back e.read s.2.mapper) result (e.read, s.2) (r, world))
    (h : Serves back (ended ++ [⟨e.pid, e.read.fd, result⟩]) rest (s.1, world) all t) :
    Serves back ended (e :: rest) s all t := by
  obtain ⟨new, kept, rfl, hentries, hpass⟩ := h
  refine ⟨⟨e.pid, e.read.fd, result⟩ :: new, kept, by simp, hentries, ?_⟩
  have hslots : world.slots = (s.2.slots.resolve e.read.slot result).2 := he.slots
  rw [hslots] at hpass
  exact .finish hopen he.mapper hpass

theorem pollEntries_meets {backend : Backend δ μ} (hh : Served backend.mapper back holds)
    {claimed : List Fd} {ended : List Completion} {rest : List QueueEntry}
    (hs : holds s.2.mapper s.2.slots (s.1.entries ++ rest)) :
    (pollEntries backend claimed ended rest).Meets gap s fun all t =>
      holds t.2.mapper t.2.slots t.1.entries ∧ Serves back ended rest s all t := by
  induction rest generalizing s claimed ended with
  | nil =>
    rw [List.append_nil] at hs
    exact Op.pure_meets ⟨hs, .done _ _⟩
  | cons e rest ih =>
    obtain ⟨hlive, hend⟩ := hh.ends hs
    have hlive' := hlive δ s.2.device
    unfold pollEntries
    split
    · refine (keep_gives e s).bind ((ih ?_).mono ?_)
      · rw [List.append_assoc]
        exact hs
      · rintro all t ⟨ht, hserves⟩
        exact ⟨ht, hserves.keep_same hlive'.state⟩
    · refine (withRead_meets (drive_meets hlive')).bind ?_
      rintro ⟨state, e'⟩ ⟨q, world⟩ ⟨hpid, hqueue, hstate, hstep⟩
      obtain ⟨pid, r⟩ := e'
      dsimp only at hpid hqueue hstate hstep ⊢
      subst hpid hstate hqueue
      rcases hstep with hw | ⟨result, he⟩
      · rw [if_neg (by rw [hw.state]; exact Bool.false_ne_true)]
        have he' : QueueEntry.mk e.pid r = e.withState r.state :=
          congrArg (QueueEntry.mk e.pid) hw.read
        rw [he']
        refine (keep_gives _ _).bind ((ih ?_).mono ?_)
        · rw [List.append_assoc, hw.mapper, hw.slots]
          exact hh.waits hw.state hs
        · rintro all t ⟨ht, hserves⟩
          exact ⟨ht, .keep hw.state hw.mapper hw.slots hserves⟩
      · rw [if_pos he.state]
        have hfd : r.fd = e.read.fd := Ends.fd he
        refine (completionOf_gives (Ends.get? he hlive'.slot)).bind ((discard_gives he).bind ?_)
        rw [hfd]
        refine (ih ?_).mono ?_
        · rw [he.slots]
          exact hend _ result he.mapper
        · rintro all t ⟨ht, hserves⟩
          exact ⟨ht, .finish hlive'.slot he hserves⟩

theorem cancelEntries_meets {selected : QueueEntry → Bool} (hh : Served mapper back holds)
    {ended : List Completion} {rest : List QueueEntry}
    (hs : holds s.2.mapper s.2.slots (s.1.entries ++ rest)) :
    (cancelEntries mapper selected ended rest).Meets gap s fun all t =>
      holds t.2.mapper t.2.slots t.1.entries ∧ Serves back ended rest s all t ∧
        t.1.entries = (s.1.entries ++ rest.filter fun e => !selected e) ∧
        ((∀ c ∈ ended, c.result = .error .cancelled) →
          ∀ c ∈ all, c.result = .error .cancelled) := by
  induction rest generalizing s ended with
  | nil =>
    rw [List.append_nil] at hs
    exact Op.pure_meets ⟨hs, .done _ _, by simp, id⟩
  | cons e rest ih =>
    obtain ⟨hlive, hend⟩ := hh.ends hs
    have hlive' := hlive δ s.2.device
    unfold cancelEntries
    cases hsel : selected e with
    | false =>
      rw [if_neg Bool.false_ne_true]
      refine (keep_gives e s).bind ((ih ?_).mono ?_)
      · rw [List.append_assoc]
        exact hs
      · rintro all t ⟨ht, hserves, hentries, hcancelled⟩
        refine ⟨ht, hserves.keep_same hlive'.state, ?_, hcancelled⟩
        rw [hentries, List.append_assoc, List.filter_cons_of_pos (by rw [hsel]; rfl)]
        rfl
    | true =>
      rw [if_pos rfl]
      refine (withRead_meets (Read.cancel_meets hlive')).bind ?_
      rintro ⟨b, e'⟩ ⟨q, world⟩ ⟨hpid, hqueue, he⟩
      obtain ⟨pid, r⟩ := e'
      dsimp only at hpid hqueue he ⊢
      subst hpid hqueue
      have hfd : r.fd = e.read.fd := Ends.fd he
      refine (completionOf_gives (Ends.get? he hlive'.slot)).bind ((discard_gives he).bind ?_)
      rw [hfd]
      refine (ih ?_).mono ?_
      · rw [he.slots]
        exact hend _ _ he.mapper
      · rintro all t ⟨ht, hserves, hentries, hcancelled⟩
        refine ⟨ht, .finish hlive'.slot he hserves, ?_, fun hc => hcancelled ?_⟩
        · rw [hentries, List.filter_cons_of_neg (by rw [hsel]; exact Bool.false_ne_true)]
        · intro c hmem
          rcases List.mem_append.mp hmem with hold | hnew
          · exact hc c hold
          · rw [List.mem_singleton.mp hnew]

theorem pollAll_meets {backend : Backend δ μ} (hh : Served backend.mapper back holds)
    (hs : holds s.2.mapper s.2.slots s.1.entries) :
    (pollAll backend).Meets gap s fun ended t => holds t.2.mapper t.2.slots t.1.entries ∧
      Pass back s.2.mapper s.2.slots s.1.entries ended t.1.entries t.2.mapper t.2.slots := by
  unfold pollAll
  refine (takeEntries_gives s).bind ?_
  refine (pollEntries_meets (s := (empty, s.2)) hh hs).bind ?_
  rintro ended t ⟨ht, new, kept, rfl, hentries, hpass⟩
  rw [show kept = t.1.entries from hentries.symm] at hpass
  split
  · exact Op.pure_meets ⟨ht, hpass⟩
  · refine (Op.read_gives _).bind ((Op.record_gives (by rintro ⟨⟩)).bind ?_)
    exact Op.pure_meets ⟨ht, hpass⟩

structure Cancelled (back : Read → μ → μ → Prop) (selected : QueueEntry → Bool)
    (s : ReadQueue × IoWorld δ μ) (ended : List Completion) (t : ReadQueue × IoWorld δ μ) :
    Prop where
  pass : Pass back s.2.mapper s.2.slots s.1.entries ended t.1.entries t.2.mapper t.2.slots
  entries : t.1.entries = s.1.entries.filter fun e => !selected e
  results : ∀ c ∈ ended, c.result = .error .cancelled

theorem cancelWhere_meets {selected : QueueEntry → Bool} (hh : Served mapper back holds)
    (hs : holds s.2.mapper s.2.slots s.1.entries) :
    (cancelWhere mapper selected).Meets gap s fun ended t =>
      holds t.2.mapper t.2.slots t.1.entries ∧ Cancelled back selected s ended t := by
  unfold cancelWhere
  refine (takeEntries_gives s).bind ?_
  refine (cancelEntries_meets (s := (empty, s.2)) hh hs).bind ?_
  rintro ended t ⟨ht, ⟨new, kept, rfl, hkept, hpass⟩, hentries, hcancelled⟩
  rw [show kept = t.1.entries from hkept.symm] at hpass
  have hdone : Cancelled back selected s ended t := ⟨hpass, hentries, hcancelled nofun⟩
  split
  · exact Op.pure_meets ⟨ht, hdone⟩
  · exact (Op.record_gives (by rintro ⟨⟩)).bind (Op.pure_meets ⟨ht, hdone⟩)

end PagedKernel.ReadQueue
