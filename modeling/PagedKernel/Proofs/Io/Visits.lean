import PagedKernel.Proofs.Io.Queue
import PagedKernel.Proofs.Io.Recording

/-! A call on the queue, read by read. A pass visits every read once, in the order of the
queue, and the read stays or leaves with a result. What becomes of the reads, the device
and the slots is a function of what they were. The mapper has no say in it: it is asked
for the loans of the reads that end, one after the other. -/

namespace PagedKernel

/-- The moves that a read in some state can make when it is driven or cancelled. -/
inductive Move.Fits : ReadState → Move → Prop
  | stays (state : ReadState) : Fits state (.wait state)
  | goesOn {state next : ReadState} (h : state.isTerminal = false)
    (hnext : next.isTerminal = false) : Fits state (.wait next)
  | ends {state : ReadState} (h : state.isTerminal = false) (result : ReadResult) :
    Fits state (.finish result)

theorem Move.From.fits {state : ReadState} {move : Move} (h : Move.From state move) :
    move.Fits state := by
  cases h with
  | stays => exact .stays _
  | opens => exact .goesOn rfl rfl
  | starts => exact .goesOn rfl rfl
  | ends h result =>
    refine .ends ?_ result
    rcases h with rfl | rfl <;> rfl

def Move.make (r : Read) (slots : Slots) : Move → Read × Slots
  | wait state => ({ r with state }, slots)
  | finish result =>
    ({ r with loan := none, state := .of result }, (slots.resolve r.slot result).2)

namespace Slots

variable {slots : Slots} {id other : SlotId}

def reported (slots : Slots) (id : SlotId) : ReadResult :=
  (slots.get? id).getD (.error .cancelled)

theorem cell_resolve (hne : other ≠ id) (result : ReadResult) :
    (slots.resolve id result).2.cells[other]? = slots.cells[other]? := by
  unfold resolve
  split
  · rfl
  · exact Array.getElem?_setIfInBounds_ne hne.symm

theorem cell_resolve_self {slots' : Slots} (h : slots'.cells[id]? = slots.cells[id]?)
    (result : ReadResult) :
    (slots'.resolve id result).2.cells[id]? = (slots.resolve id result).2.cells[id]? := by
  unfold resolve
  rw [h]
  cases hcell : slots.cells[id]? with
  | none => exact h
  | some cell =>
    have hlt := (Array.getElem?_eq_some_iff.mp hcell).1
    have hlt' := (Array.getElem?_eq_some_iff.mp (h.trans hcell)).1
    dsimp only
    rw [Array.getElem?_setIfInBounds_self_of_lt hlt, Array.getElem?_setIfInBounds_self_of_lt hlt']

theorem size_resolve (slots : Slots) (id : SlotId) (result : ReadResult) :
    (slots.resolve id result).2.cells.size = slots.cells.size := by
  unfold resolve
  split
  · rfl
  · exact Array.size_setIfInBounds

theorem get?_resolve_of_get? {value : ReadResult} (h : slots.get? other = some value)
    (result : ReadResult) : (slots.resolve id result).2.get? other = some value := by
  by_cases hne : other = id
  · subst hne
    obtain ⟨cell, hcell, hvalue⟩ := Option.bind_eq_some_iff.mp h
    have hlt := (Array.getElem?_eq_some_iff.mp hcell).1
    unfold resolve get?
    rw [hcell]
    dsimp only
    rw [Array.getElem?_setIfInBounds_self_of_lt hlt]
    exact OnceCell.get?_set_of_get? result hvalue
  · rw [get?, cell_resolve hne]
    exact h

end Slots

namespace Move

variable {move : Move} {r : Read} {slots slots' : Slots} {id : SlotId}

theorem make_slot (move : Move) (r : Read) (slots : Slots) :
    (move.make r slots).1.slot = r.slot := by
  cases move <;> rfl

theorem make_fd (move : Move) (r : Read) (slots : Slots) : (move.make r slots).1.fd = r.fd := by
  cases move <;> rfl

theorem make_cell (h : id ≠ r.slot) : (move.make r slots).2.cells[id]? = slots.cells[id]? := by
  cases move with
  | wait state => rfl
  | finish result => exact Slots.cell_resolve h result

theorem make_size (move : Move) (r : Read) (slots : Slots) :
    (move.make r slots).2.cells.size = slots.cells.size := by
  cases move with
  | wait state => rfl
  | finish result => exact slots.size_resolve r.slot result

theorem make_get? {value : ReadResult} (h : slots.get? id = some value) :
    (move.make r slots).2.get? id = some value := by
  cases move with
  | wait state => exact h
  | finish result => exact Slots.get?_resolve_of_get? h result

theorem make_congr (h : slots'.cells[r.slot]? = slots.cells[r.slot]?) :
    (move.make r slots').1 = (move.make r slots).1 ∧
      (move.make r slots').2.cells[r.slot]? = (move.make r slots).2.cells[r.slot]? := by
  cases move with
  | wait state => exact ⟨rfl, h⟩
  | finish result => exact ⟨rfl, Slots.cell_resolve_self h result⟩

end Move

namespace AliasMapper

variable {μ : Type} {mapper : AliasMapper μ} {m m₁ m' : μ} {loans later : List Loan}

/-- Some loans were asked back, one after the other, whatever the mapper made of it. -/
inductive TakesBack (mapper : AliasMapper μ) : List Loan → μ → μ → Prop
  | nil (m : μ) : TakesBack mapper [] m m
  | cons {loan : Loan} {rest : List Loan} {m m' : μ} {events : Array Event}
    {answer : Except AliasError Unit} {t : Traced μ}
    (hrun : (mapper.takeBack loan.base loan.span).run ⟨m, events⟩ = .ok answer t)
    (hrest : TakesBack mapper rest t.state m') : TakesBack mapper (loan :: rest) m m'

theorem TakesBack.append (h : mapper.TakesBack loans m m₁) (h' : mapper.TakesBack later m₁ m') :
    mapper.TakesBack (loans ++ later) m m' := by
  induction h with
  | nil => exact h'
  | cons hrun _ ih => exact .cons hrun (ih h')

theorem takeBack_leads (mapper : AliasMapper μ) (loan : Loan) (m : μ) :
    (mapper.takeBack loan.base loan.span).run.Leads (¬ mapper.Answers) m fun _ m' =>
      mapper.TakesBack [loan] m m' := by
  intro events
  cases hrun : (mapper.takeBack loan.base loan.span).run ⟨m, events⟩ with
  | ok answer t => exact .cons hrun (.nil _)
  | error fault t =>
    intro hanswers
    have h := hanswers loan.base loan.span m events
    rw [hrun] at h
    exact h

end AliasMapper

namespace Read

variable {δ μ : Type} {mapper : AliasMapper μ} {s t : Read × IoWorld δ μ} {move : Move}

def returned (before after : Read) : List Loan :=
  if after.loan.isSome then [] else before.loan.toList

theorem returns_takesBack (mapper : AliasMapper μ) (m : μ) (loan : Option Loan) :
    Returns (¬ mapper.Answers) mapper (mapper.TakesBack loan.toList m) m loan := by
  cases loan with
  | none => exact .nil m
  | some loan => exact mapper.takeBack_leads loan m

/-- A move was made: device, slots and the read are as it leaves them, and the loan that is
gone was asked back. -/
structure Moved (mapper : AliasMapper μ) (s : Read × IoWorld δ μ) (move : Move × δ)
    (t : Read × IoWorld δ μ) : Prop where
  made : (t.1, t.2.slots) = move.1.make s.1 s.2.slots
  device : t.2.device = move.2
  mapper : mapper.TakesBack (s.1.returned t.1) s.2.mapper t.2.mapper

theorem Makes.moved {d : δ}
    (h : Makes (mapper.TakesBack s.1.loan.toList s.2.mapper) (withDevice s d) move t) :
    Moved mapper s (move, d) t := by
  cases h with
  | wait state =>
    refine ⟨rfl, rfl, ?_⟩
    unfold returned
    cases h : s.1.loan <;> simp [withDevice, h, AliasMapper.TakesBack.nil]
  | finish result h => exact ⟨rfl, rfl, h⟩

def Follows (before after : Read) : Prop :=
  after = { before with loan := after.loan, state := after.state }

theorem Follows.refl (r : Read) : r.Follows r := rfl

theorem Follows.trans {a b c : Read} (h : a.Follows b) (h' : b.Follows c) : a.Follows c := by
  rw [Follows] at h' ⊢
  rw [h', h]

theorem Follows.slot {a b : Read} (h : a.Follows b) : b.slot = a.slot := by
  rw [h]

theorem Follows.fd {a b : Read} (h : a.Follows b) : b.fd = a.fd := by
  rw [h]

theorem make_follows (move : Move) (r : Read) (slots : Slots) :
    r.Follows (move.make r slots).1 := by
  cases move <;> rfl

/-- While a read waits its slot is open. Once it has ended its slot holds the result, and
nothing is lent to it. -/
structure InStep (slots : Slots) (r : Read) : Prop where
  pending : r.state.isTerminal = false → slots.Open r.slot
  ended : r.state.isTerminal = true → r.loan = none ∧
    ∃ result, slots.get? r.slot = some result ∧ r.state = .of result

namespace InStep

variable {slots slots' : Slots} {r : Read}

theorem congr (h : r.InStep slots) (hcell : slots'.cells[r.slot]? = slots.cells[r.slot]?) :
    r.InStep slots' := by
  refine ⟨fun hs => hcell.trans (h.pending hs), fun hs => ?_⟩
  rw [Slots.get?_congr hcell]
  exact h.ended hs

theorem make (h : r.InStep slots) (hfits : move.Fits r.state) :
    (move.make r slots).1.InStep (move.make r slots).2 := by
  cases hfits with
  | stays => exact h
  | goesOn hs hnext =>
    refine ⟨fun _ => h.pending hs, fun hover => ?_⟩
    cases hnext.symm.trans hover
  | ends hs result =>
    refine ⟨fun hwaits => ?_, fun _ => ⟨rfl, result, Slots.get?_resolve (h.pending hs) result, rfl⟩⟩
    dsimp only [Move.make] at hwaits
    cases result <;> cases hwaits

end InStep
end Read

namespace Device

variable {δ : Type} (device : Device δ) (asyncReads : Bool)

theorem driveMove_fits (r : Read) (d : δ) :
    (device.driveMove asyncReads r d).1.Fits r.state := by
  have hpoll := device.pollMove_from r d
  unfold driveMove
  split
  · next polled d' heq =>
    rw [heq] at hpoll
    split
    · next hready =>
      have hpending : r.state.isTerminal = false := by
        rw [← hpoll.isTerminal_eq, hready]
        rfl
      have hissue := (device.issueMove_from asyncReads { r with state := .ready } d').fits
      revert hissue
      generalize (device.issueMove asyncReads { r with state := .ready } d').1 = move
      intro hissue
      cases hissue with
      | stays => exact .goesOn hpending rfl
      | goesOn _ hnext => exact .goesOn hpending hnext
      | ends _ result => exact .ends hpending result
    · exact hpoll.fits
  · next heq =>
    rw [heq] at hpoll
    exact hpoll.fits

end Device

namespace Read

theorem cancelMove_fits (r : Read) : r.cancelMove.Fits r.state := by
  unfold cancelMove
  split
  · exact .stays _
  · next h => exact .ends (Bool.eq_false_iff.mpr h) _

theorem cancelMove_ended (r : Read) (slots : Slots) :
    (r.cancelMove.make r slots).1.state.isTerminal = true := by
  unfold cancelMove
  split
  · next h => exact h
  · rfl

end Read

namespace ReadQueue

/-- What a call makes of a queued read. With a result it leaves the queue. -/
structure Visit where
  before : QueueEntry
  after : QueueEntry
  result? : Option ReadResult

namespace Visit

def skipped (e : QueueEntry) : Visit :=
  ⟨e, e, none⟩

def made (e : QueueEntry) (x : Read × Slots) : Visit :=
  ⟨e, ⟨e.pid, x.1⟩, if x.1.state.isTerminal then some (x.2.reported x.1.slot) else none⟩

def kept? (v : Visit) : Option QueueEntry :=
  if v.result?.isSome then none else some v.after

def completion? (v : Visit) : Option Completion :=
  v.result?.map fun result => ⟨v.after.pid, v.after.read.fd, result⟩

def returned (v : Visit) : List Loan :=
  v.before.read.returned v.after.read

end Visit

section Passes

variable {δ : Type}

/-- The visits of a poll, while the descriptors `claimed` are occupied. -/
def pollPass (device : Device δ) (asyncReads : Bool) :
    List Fd → List QueueEntry → δ × Slots → List Visit × (δ × Slots)
  | _, [], w => ([], w)
  | claimed, e :: rest, w =>
    if e.read.fd ∈ claimed then
      (pollPass device asyncReads claimed rest w).map (.skipped e :: ·) id
    else
      let moved := device.driveMove asyncReads e.read w.1
      let x := moved.1.make e.read w.2
      let claimed := if x.1.state.isTerminal then claimed else e.read.fd :: claimed
      (pollPass device asyncReads claimed rest (moved.2, x.2)).map (.made e x :: ·) id

def cancelPass (selected : QueueEntry → Bool) : List QueueEntry → Slots → List Visit × Slots
  | [], slots => ([], slots)
  | e :: rest, slots =>
    if selected e then
      let x := e.read.cancelMove.make e.read slots
      (cancelPass selected rest x.2).map (.made e x :: ·) id
    else (cancelPass selected rest slots).map (.skipped e :: ·) id

end Passes

variable {δ μ : Type} {gap : Prop} {backend : Backend δ μ} {mapper : AliasMapper μ}
  {s : ReadQueue × IoWorld δ μ}

theorem withRead_leads {α : Type} {e : QueueEntry} (salvage : QueueEntry →
      Traced (ReadQueue × IoWorld δ μ) → Traced (ReadQueue × IoWorld δ μ))
    {x : Op (Read × IoWorld δ μ) α} {post : α → Read × IoWorld δ μ → Prop}
    (hx : x.Leads gap (e.read, s.2) post) :
    (withRead e salvage x).Leads gap s fun a t =>
      t.1 = s.1 ∧ a.2.pid = e.pid ∧ post a.1 (a.2.read, t.2) := by
  obtain ⟨q, world⟩ := s
  intro events
  have h := hx events
  revert h
  simp only [withRead]
  cases x ⟨(e.read, world), events⟩ with
  | ok a t => exact fun h => ⟨rfl, rfl, h⟩
  | error fault t => exact id

theorem completionOf_leads (e : QueueEntry) (s : ReadQueue × IoWorld δ μ) :
    (completionOf e).Leads gap s fun completion t => t = s ∧
      completion = ⟨e.pid, e.read.fd, s.2.slots.reported e.read.slot⟩ := by
  refine (Op.read_gives _).bind_leads ?_
  dsimp only [Slots.reported]
  cases s.2.slots.get? e.read.slot with
  | some result => exact (Op.pure_gives _).leads ⟨rfl, rfl⟩
  | none => exact Op.record_bind_leads _ ((Op.pure_gives _).leads ⟨rfl, rfl⟩)

theorem discard_leads (e : QueueEntry) (s : ReadQueue × IoWorld δ μ) :
    (discard e).Leads gap s fun _ t => t = s := by
  unfold discard
  split
  · exact Op.record_leads _ rfl
  · exact (Op.pure_gives _).leads rfl

structure Visited (mapper : AliasMapper μ) (visits : List Visit) (s : ReadQueue × IoWorld δ μ)
    (ended : List Completion) (t : ReadQueue × IoWorld δ μ) : Prop where
  ended : ended = visits.filterMap Visit.completion?
  entries : t.1.entries = s.1.entries ++ visits.filterMap Visit.kept?
  mapper : mapper.TakesBack (visits.flatMap Visit.returned) s.2.mapper t.2.mapper

theorem Visited.skip {visits : List Visit} {ended : List Completion} {e : QueueEntry}
    {t : ReadQueue × IoWorld δ μ}
    (h : Visited mapper visits (⟨s.1.entries ++ [e]⟩, s.2) ended t) :
    Visited mapper (.skipped e :: visits) s ended t := by
  refine ⟨h.ended, ?_, ?_⟩
  · rw [h.entries, List.append_assoc]
    rfl
  · have hnone : (Visit.skipped e).returned = [] := by
      unfold Visit.returned Read.returned Visit.skipped
      cases e.read.loan <;> rfl
    rw [List.flatMap_cons, hnone]
    exact h.mapper

theorem Visited.made {visits : List Visit} {ended : List Completion} {e : QueueEntry} {r : Read}
    {slots : Slots} {kept : List QueueEntry} {world : IoWorld δ μ} {t : ReadQueue × IoWorld δ μ}
    (hmapper : mapper.TakesBack (e.read.returned r) s.2.mapper world.mapper)
    (hkept : s.1.entries ++ (Visit.made e (r, slots)).kept?.toList = kept)
    (h : Visited mapper visits (⟨kept⟩, world) ended t) :
    Visited mapper (.made e (r, slots) :: visits) s
      ((Visit.made e (r, slots)).completion?.toList ++ ended) t := by
  refine ⟨?_, ?_, ?_⟩
  · rw [h.ended, List.filterMap_cons]
    cases (Visit.made e (r, slots)).completion? <;> rfl
  · rw [h.entries, ← hkept, List.append_assoc, List.filterMap_cons]
    cases (Visit.made e (r, slots)).kept? <;> rfl
  · exact hmapper.append h.mapper

theorem made_of_isTerminal {e : QueueEntry} {x : Read × Slots} (h : x.1.state.isTerminal = true) :
    (Visit.made e x).kept? = none ∧
      (Visit.made e x).completion? = some ⟨e.pid, x.1.fd, x.2.reported x.1.slot⟩ := by
  simp only [Visit.made, Visit.kept?, Visit.completion?, h, if_true, Option.isSome_some,
    Option.map_some, and_self]

theorem made_of_waiting {e : QueueEntry} {x : Read × Slots} (h : x.1.state.isTerminal = false) :
    (Visit.made e x).kept? = some ⟨e.pid, x.1⟩ ∧ (Visit.made e x).completion? = none := by
  simp only [Visit.made, Visit.kept?, Visit.completion?, h, Bool.false_eq_true, if_false,
    Option.isSome_none, Option.map_none, and_self]

theorem drive_moves (backend : Backend δ μ) (s : Read × IoWorld δ μ) :
    (drive backend).Leads (¬ backend.mapper.Answers) s fun state t => state = t.1.state ∧
      Read.Moved backend.mapper s
        (backend.device.driveMove backend.asyncReads s.1 s.2.device) t :=
  (drive_leads (Read.returns_takesBack _ _ _)).mono fun _ _ h => ⟨h.1, h.2.moved⟩

theorem cancel_moves (mapper : AliasMapper μ) (s : Read × IoWorld δ μ) :
    (Read.cancel mapper).Leads (¬ mapper.Answers) s fun _ t =>
      Read.Moved mapper s (s.1.cancelMove, s.2.device) t :=
  (Read.cancel_leads (Read.returns_takesBack _ _ _)).mono fun _ _ h => Read.Makes.moved h.2

theorem pollEntries_visits (claimed : List Fd) (ended : List Completion) (rest : List QueueEntry)
    (s : ReadQueue × IoWorld δ μ) :
    (pollEntries backend claimed ended rest).Leads (¬ backend.mapper.Answers) s fun all t =>
      ∃ new, all = ended ++ new ∧
        Visited backend.mapper (pollPass backend.device backend.asyncReads claimed rest
          (s.2.device, s.2.slots)).1 s new t ∧
        (t.2.device, t.2.slots) = (pollPass backend.device backend.asyncReads claimed rest
          (s.2.device, s.2.slots)).2 := by
  induction rest generalizing claimed ended s with
  | nil =>
    refine (Op.pure_gives _).leads ⟨[], (List.append_nil _).symm, ⟨rfl, ?_, .nil _⟩, rfl⟩
    exact (List.append_nil _).symm
  | cons e rest ih =>
    rw [pollEntries, pollPass]
    split
    · next hfd =>
      refine (keep_gives e s).bind_leads ((ih claimed ended _).mono ?_)
      rintro all t ⟨new, rfl, hvisited, hshared⟩
      exact ⟨new, rfl, hvisited.skip, hshared⟩
    · next hfd =>
      refine (withRead_leads _ (drive_moves backend (e.read, s.2))).bind ?_
      rintro ⟨state, pid, r⟩ ⟨q, w⟩ ⟨hq, hpid, hstate, hmoved⟩
      dsimp only at hq hpid hstate hmoved ⊢
      subst hq hpid hstate
      rw [← hmoved.made, ← hmoved.device]
      dsimp only
      cases hover : r.state.isTerminal with
      | true =>
        obtain ⟨hkept, hcompletion⟩ := made_of_isTerminal (e := e) (x := (r, w.slots)) hover
        refine (completionOf_leads _ _).bind ?_
        rintro completion t ⟨rfl, rfl⟩
        refine (discard_leads _ _).bind ?_
        rintro - t rfl
        refine (ih claimed _ _).mono ?_
        rintro all t ⟨new, rfl, hvisited, hshared⟩
        refine ⟨_, List.append_assoc _ _ _, ?_, hshared⟩
        have hmade := hvisited.made hmoved.mapper (by rw [hkept]; exact List.append_nil _)
        rw [hcompletion] at hmade
        exact hmade
      | false =>
        obtain ⟨hkept, hcompletion⟩ := made_of_waiting (e := e) (x := (r, w.slots)) hover
        have hfd' : r.fd = e.read.fd :=
          (congrArg (·.1.fd) hmoved.made).trans (Move.make_fd _ _ _)
        rw [hfd']
        refine (keep_gives _ _).bind_leads ((ih _ ended _).mono ?_)
        rintro all t ⟨new, rfl, hvisited, hshared⟩
        refine ⟨new, rfl, ?_, hshared⟩
        have hmade := hvisited.made hmoved.mapper (by rw [hkept]; rfl)
        rw [hcompletion] at hmade
        exact hmade

theorem pollAll_visits (s : ReadQueue × IoWorld δ μ) :
    (pollAll backend).Leads (¬ backend.mapper.Answers) s fun ended t =>
      Visited backend.mapper (pollPass backend.device backend.asyncReads [] s.1.entries
        (s.2.device, s.2.slots)).1 (empty, s.2) ended t ∧
      (t.2.device, t.2.slots) = (pollPass backend.device backend.asyncReads [] s.1.entries
        (s.2.device, s.2.slots)).2 := by
  unfold pollAll
  refine (takeEntries_gives s).bind_leads ((pollEntries_visits [] [] _ (empty, s.2)).bind ?_)
  rintro ended t ⟨new, rfl, ht⟩
  split
  · exact (Op.pure_gives _).leads ht
  · exact (Op.read_gives _).bind_leads (Op.record_bind_leads _ ((Op.pure_gives _).leads ht))

theorem cancelEntries_visits (selected : QueueEntry → Bool) (ended : List Completion)
    (rest : List QueueEntry) (s : ReadQueue × IoWorld δ μ) :
    (cancelEntries mapper selected ended rest).Leads (¬ mapper.Answers) s fun all t =>
      ∃ new, all = ended ++ new ∧
        Visited mapper (cancelPass selected rest s.2.slots).1 s new t ∧
        t.2.device = s.2.device ∧ t.2.slots = (cancelPass selected rest s.2.slots).2 := by
  induction rest generalizing ended s with
  | nil =>
    refine (Op.pure_gives _).leads ⟨[], (List.append_nil _).symm, ⟨rfl, ?_, .nil _⟩, rfl, rfl⟩
    exact (List.append_nil _).symm
  | cons e rest ih =>
    rw [cancelEntries, cancelPass]
    split
    · refine (withRead_leads _ (cancel_moves mapper (e.read, s.2))).bind ?_
      rintro ⟨answer, pid, r⟩ ⟨q, w⟩ ⟨hq, hpid, hmoved⟩
      dsimp only at hq hpid hmoved ⊢
      subst hq hpid
      rw [← hmoved.made]
      have hover : r.state.isTerminal = true :=
        (congrArg (·.1.state.isTerminal) hmoved.made).trans (Read.cancelMove_ended _ _)
      obtain ⟨hkept, hcompletion⟩ := made_of_isTerminal (e := e) (x := (r, w.slots)) hover
      refine (completionOf_leads _ _).bind ?_
      rintro completion t ⟨rfl, rfl⟩
      refine (discard_leads _ _).bind ?_
      rintro - t rfl
      refine (ih _ _).mono ?_
      rintro all t ⟨new, rfl, hvisited, hdevice, hslots⟩
      refine ⟨_, List.append_assoc _ _ _, ?_, hdevice.trans hmoved.device, hslots⟩
      have hmade := hvisited.made hmoved.mapper (by rw [hkept]; exact List.append_nil _)
      rw [hcompletion] at hmade
      exact hmade
    · refine (keep_gives e s).bind_leads ((ih ended _).mono ?_)
      rintro all t ⟨new, rfl, hvisited, hshared⟩
      exact ⟨new, rfl, hvisited.skip, hshared⟩

theorem cancelWhere_visits (selected : QueueEntry → Bool) (s : ReadQueue × IoWorld δ μ) :
    (cancelWhere mapper selected).Leads (¬ mapper.Answers) s fun ended t =>
      Visited mapper (cancelPass selected s.1.entries s.2.slots).1 (empty, s.2) ended t ∧
      t.2.device = s.2.device ∧ t.2.slots = (cancelPass selected s.1.entries s.2.slots).2 := by
  unfold cancelWhere
  refine (takeEntries_gives s).bind_leads ((cancelEntries_visits _ [] _ (empty, s.2)).bind ?_)
  rintro ended t ⟨new, rfl, ht⟩
  split
  · exact (Op.pure_gives _).leads ht
  · exact Op.record_bind_leads _ ((Op.pure_gives _).leads ht)

end ReadQueue
end PagedKernel
