import PagedKernel.Io.Queue
import PagedKernel.Proofs.Agreement

/-! Reads side by side. Two worlds share what their mapper and their slots hold, and each has a
device of its own. What a read and its queue do without the device comes to the same in both,
provided that the mapper takes no notice of what was reported before. -/

namespace PagedKernel

variable {δ δ' μ : Type}

/-- A mapper that answers by its state alone. -/
structure AliasMapper.Blind (mapper : AliasMapper μ) : Prop where
  lend : ∀ user length, (mapper.lend user length).Blind
  takeBack : ∀ kernel length, (mapper.takeBack kernel length).Blind

structure IoWorld.Beside (D : δ → δ' → Prop) (w : IoWorld δ μ) (w' : IoWorld δ' μ) : Prop where
  device : D w.device w'.device
  mapper : w.mapper = w'.mapper
  slots : w.slots = w'.slots

/-- One read in two such worlds, in a state of which `W` holds. -/
structure Read.Beside (D : δ → δ' → Prop) (W : ReadState → Prop) (s : Read × IoWorld δ μ)
    (s' : Read × IoWorld δ' μ) : Prop where
  read : s.1 = s'.1
  state : W s.1.state
  world : s.2.Beside D s'.2

/-- One queue in two such worlds, with all its reads in states of which `W` holds. -/
structure ReadQueue.Beside (D : δ → δ' → Prop) (W : ReadState → Prop)
    (s : ReadQueue × IoWorld δ μ) (s' : ReadQueue × IoWorld δ' μ) : Prop where
  queue : s.1 = s'.1
  states : ∀ e ∈ s.1.entries, W e.read.state
  world : s.2.Beside D s'.2

variable {α : Type} {D : δ → δ' → Prop} {W : ReadState → Prop} {mapper : AliasMapper μ}
  {p : α → Prop}

namespace Read

open Op (Agrees)

theorem onDevice_agrees {f : δ → α × δ} {g : δ' → α × δ'}
    (h : ∀ d d', D d d' → (f d).1 = (g d').1 ∧ D (f d).2 (g d').2) :
    Agrees (Beside (μ := μ) D W) (fun _ => True) (onDevice f) (onDevice g) := by
  refine Agrees.zoom (R := D) (fun s s' hs => ⟨hs.world.device, fun d d' hd => ?_⟩) ?_
  · exact ⟨hs.read, hs.state, hd, hs.world.mapper, hs.world.slots⟩
  · exact Op.update_agrees fun d d' hd => ⟨(h d d' hd).1, trivial, (h d d' hd).2⟩

theorem onMapper_agrees {x : Op μ α} (hx : x.Blind) :
    Agrees (Beside D W) (fun _ => True) (Op.zoom mapperPart x) (Op.zoom mapperPart x) := by
  refine Agrees.zoom (fun s s' hs => ⟨hs.world.mapper, fun m m' hm => ?_⟩) hx
  exact ⟨hs.read, hs.state, hs.world.device, hm, hs.world.slots⟩

theorem current_agrees :
    Agrees (Beside (μ := μ) D W) (fun r => W r.state) current current :=
  Op.read_agrees fun _ _ hs => ⟨hs.read, hs.state⟩

theorem lastState_agrees :
    Agrees (Beside (μ := μ) D W) W (do return (← current).state) (do return (← current).state) :=
  current_agrees.bind fun _ hr => Op.pure_agrees hr

theorem setState_agrees {state : ReadState} (hstate : W state) :
    Agrees (Beside (μ := μ) D W) (fun _ => True) (setState state) (setState state) := by
  refine Op.modify_agrees fun s s' hs => ⟨?_, hstate, hs.world⟩
  simp only [hs.read]

theorem takeLoan_agrees :
    Agrees (Beside (μ := μ) D W) (fun _ => True) takeLoan takeLoan := by
  refine Op.update_agrees fun s s' hs => ⟨?_, trivial, ?_, hs.state, hs.world⟩
  · simp only [hs.read]
  · simp only [hs.read]

theorem releaseLoan_agrees (hm : mapper.Blind) :
    Agrees (Beside D W) (fun _ => True) (releaseLoan mapper) (releaseLoan mapper) := by
  refine takeLoan_agrees.bind fun loan _ => ?_
  cases loan with
  | none => exact Op.pure_agrees trivial
  | some loan =>
    have htaken := Call.blind_iff.mp (hm.takeBack loan.base loan.span)
    refine (onMapper_agrees htaken).bind fun answer _ => ?_
    cases answer with
    | ok _ => exact Op.pure_agrees trivial
    | error cause => exact current_agrees.bind fun r _ => Op.record_agrees _ _

theorem resolve_agrees (result : ReadResult) :
    Agrees (Beside (μ := μ) D W) (fun _ => True) (resolve result) (resolve result) := by
  refine Agrees.bind (p := fun _ => True) (Op.update_agrees ?_) fun stored _ => ?_
  · rintro ⟨r, w⟩ ⟨_, w'⟩ ⟨rfl, hstate, hdevice, hmapper, hslots⟩
    dsimp only at hmapper hslots ⊢
    rw [← hmapper, ← hslots]
    exact ⟨rfl, trivial, rfl, hstate, hdevice, rfl, rfl⟩
  · cases stored with
    | ok _ => exact Op.pure_agrees trivial
    | error rejected => exact Op.record_agrees _ _

theorem finish_agrees (hm : mapper.Blind) (hdone : W .done) (hfailed : W .failed)
    (result : ReadResult) :
    Agrees (Beside D W) (fun _ => True) (finish mapper result) (finish mapper result) := by
  refine (releaseLoan_agrees hm).bind fun _ _ => current_agrees.bind fun r _ => ?_
  cases result with
  | ok n =>
    refine (setState_agrees hdone).bind fun _ _ => ?_
    exact (Op.record_agrees _ _).bind fun _ _ => resolve_agrees _
  | error cause =>
    refine (setState_agrees hfailed).bind fun _ _ => ?_
    exact (Op.record_agrees _ _).bind fun _ _ => resolve_agrees _

theorem cancel_agrees (hm : mapper.Blind) (hdone : W .done) (hfailed : W .failed) :
    Agrees (Beside D W) (fun _ => True) (cancel mapper) (cancel mapper) := by
  refine current_agrees.bind fun r _ => ?_
  split
  · exact Op.pure_agrees trivial
  · exact (finish_agrees hm hdone hfailed _).bind fun _ _ => Op.pure_agrees trivial

theorem prepare_agrees (hm : mapper.Blind) (fd : Fd) (user : VirtualAddress) (count : Nat)
    (slot : SlotId) :
    Call.Agrees Eq (fun r => r.state = .notStarted) (prepare mapper fd user count slot)
      (prepare mapper fd user count slot) := by
  unfold prepare
  split
  · exact (Call.record_agrees _ _).bind fun _ _ => Call.pure_agrees rfl
  · split
    · exact Call.throw_agrees _
    · refine Call.Agrees.bind (hm.lend _ _) fun base _ => ?_
      refine (Call.lift_agrees (Op.ofExcept_agrees _)).bind fun kernel _ => ?_
      exact (Call.record_agrees _ _).bind fun _ _ => Call.pure_agrees rfl

end Read

namespace ReadQueue

open Op (Agrees)

variable {e : QueueEntry} {es : List QueueEntry}

theorem keep_agrees (he : W e.read.state) :
    Agrees (Beside (μ := μ) D W) (fun _ => True) (keep e) (keep e) := by
  refine Op.modify_agrees fun s s' hs => ⟨?_, ?_, hs.world⟩
  · simp only [hs.queue]
  · simp only [List.forall_mem_append, List.forall_mem_singleton]
    exact ⟨hs.states, he⟩

theorem takeEntries_agrees :
    Agrees (Beside (μ := μ) D W) (fun es => ∀ e ∈ es, W e.read.state) takeEntries takeEntries :=
  Op.update_agrees fun _ _ hs =>
    ⟨congrArg ReadQueue.entries hs.queue, hs.states, rfl, nofun, hs.world⟩

theorem withRead_agrees
    {salvage : QueueEntry → Traced (ReadQueue × IoWorld δ μ) → Traced (ReadQueue × IoWorld δ μ)}
    {salvage' : QueueEntry → Traced (ReadQueue × IoWorld δ' μ) → Traced (ReadQueue × IoWorld δ' μ)}
    {x : Op (Read × IoWorld δ μ) α} {y : Op (Read × IoWorld δ' μ) α} (he : W e.read.state)
    (hsalvage : ∀ e t t', W e.read.state → Beside D W t.state t'.state →
      Beside D W (salvage e t).state (salvage' e t').state)
    (hx : Agrees (Read.Beside D W) p x y) :
    Agrees (Beside D W) (fun answer : α × QueueEntry => p answer.1 ∧ W answer.2.read.state)
      (withRead e salvage x) (withRead e salvage' y) := by
  rintro ⟨q, w⟩ ⟨_, w'⟩ events events' ⟨rfl, hstates, hworld⟩
  have hend := hx (e.read, w) (e.read, w') events events' ⟨rfl, he, hworld⟩
  revert hend
  simp only [withRead]
  generalize x ⟨(e.read, w), events⟩ = r, y ⟨(e.read, w'), events'⟩ = r'
  intro hend
  cases hend with
  | @answer a t t' ha ht =>
    obtain ⟨⟨r, w⟩, later⟩ := t
    obtain ⟨⟨_, w'⟩, later'⟩ := t'
    obtain ⟨rfl, hstate, hw⟩ := ht
    exact .answer ⟨ha, hstate⟩ ⟨rfl, hstates, hw⟩
  | @fault f t t' ht =>
    obtain ⟨⟨r, w⟩, later⟩ := t
    obtain ⟨⟨_, w'⟩, later'⟩ := t'
    obtain ⟨rfl, hstate, hw⟩ := ht
    exact .fault (hsalvage _ _ _ hstate ⟨rfl, hstates, hw⟩)

theorem completionOf_agrees (e : QueueEntry) :
    Agrees (Beside (μ := μ) D W) (fun _ => True) (completionOf e) (completionOf e) := by
  refine Agrees.bind (p := fun _ => True)
    (Op.read_agrees fun _ _ hs => ⟨by rw [hs.world.slots], trivial⟩) fun result? _ => ?_
  cases result? with
  | some result => exact Op.pure_agrees trivial
  | none => exact (Op.record_agrees _ _).bind fun _ _ => Op.pure_agrees trivial

theorem discard_agrees (e : QueueEntry) :
    Agrees (Beside (μ := μ) D W) (fun _ => True) (discard e) (discard e) := by
  unfold discard
  cases e.read.dropEvent? with
  | none => exact Op.pure_agrees trivial
  | some event => exact Op.record_agrees _ _

theorem cancelEntries_agrees (hm : mapper.Blind) (hdone : W .done) (hfailed : W .failed)
    (selected : QueueEntry → Bool) (hes : ∀ e ∈ es, W e.read.state) (ended : List Completion) :
    Agrees (Beside D W) (fun _ => True) (cancelEntries mapper selected ended es)
      (cancelEntries mapper selected ended es) := by
  induction es generalizing ended with
  | nil => exact Op.pure_agrees trivial
  | cons e rest ih =>
    obtain ⟨he, hrest⟩ := List.forall_mem_cons.mp hes
    rw [cancelEntries, cancelEntries]
    split
    · refine (withRead_agrees he ?_ (Read.cancel_agrees hm hdone hfailed)).bind ?_
      · rintro e t t' - ⟨-, -, hworld⟩
        exact ⟨rfl, nofun, hworld⟩
      · rintro ⟨cancelled, e⟩ -
        refine (completionOf_agrees e).bind fun completion _ => ?_
        exact (discard_agrees e).bind fun _ _ => ih hrest _
    · exact (keep_agrees he).bind fun _ _ => ih hrest _

theorem cancelWhere_agrees (hm : mapper.Blind) (hdone : W .done) (hfailed : W .failed)
    (selected : QueueEntry → Bool) :
    Agrees (Beside D W) (fun _ => True) (cancelWhere mapper selected)
      (cancelWhere mapper selected) := by
  refine takeEntries_agrees.bind fun es hes => ?_
  refine (cancelEntries_agrees hm hdone hfailed selected hes []).bind fun ended _ => ?_
  dsimp only
  split
  · exact Op.pure_agrees trivial
  · exact (Op.record_agrees _ _).bind fun _ _ => Op.pure_agrees trivial

theorem submit_agrees (pid : ProcessId) {r : Read} (hr : W r.state) :
    Agrees (fun q q' => q = q' ∧ ∀ e ∈ q.entries, W e.read.state) (fun _ => True)
      (submit pid r) (submit pid r) := by
  refine (Op.record_agrees _ _).bind fun _ _ => Op.modify_agrees ?_
  rintro q _ ⟨rfl, hq⟩
  refine ⟨rfl, ?_⟩
  simp only [List.forall_mem_append, List.forall_mem_singleton]
  exact ⟨hq, hr⟩

end ReadQueue

end PagedKernel
