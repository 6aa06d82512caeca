import Mathlib.Data.List.Nodup
import PagedKernel.Proofs.Io.LiveLoans
import PagedKernel.Proofs.Io.SeparableDevice

/-! The descriptors of a queue do not interfere. What a series of calls comes to on one descriptor
is what the calls that concern it come to on the reads on that descriptor alone, provided that
the device keeps its descriptors apart and no two reads share a slot. -/

namespace PagedKernel

open ReadQueue (Visit Visits cancelPass pollPass slotsOf)

def Slots.Alike (own : SlotId → Prop) (slots slots' : Slots) : Prop :=
  ∀ id, own id → slots'.cells[id]? = slots.cells[id]?

namespace Slots.Alike

variable {own : SlotId → Prop} {slots slots' : Slots} {r : Read}

theorem make (h : Alike own slots slots') (hr : own r.slot) (move : Move) :
    (move.make r slots').1 = (move.make r slots).1 ∧
      Alike own (move.make r slots).2 (move.make r slots').2 := by
  refine ⟨(Move.make_congr (h r.slot hr)).1, fun id hid => ?_⟩
  by_cases hsame : id = r.slot
  · subst hsame
    exact (Move.make_congr (h r.slot hr)).2
  · rw [Move.make_cell hsame, Move.make_cell hsame]
    exact h id hid

theorem make_other (h : Alike own slots slots') (hr : ¬ own r.slot) (move : Move) :
    Alike own (move.make r slots).2 slots' := by
  intro id hid
  rw [Move.make_cell fun hsame => hr (hsame ▸ hid)]
  exact h id hid

end Slots.Alike

theorem ReadQueue.Visit.made_make {own : SlotId → Prop} {e : QueueEntry} {slots slots' : Slots}
    (h : slots.Alike own slots') (he : own e.read.slot) (move : Move) :
    made e (move.make e.read slots') = made e (move.make e.read slots) := by
  obtain ⟨hread, hslots⟩ := h.make he move
  have hcell := Slots.get?_congr (hslots e.read.slot he)
  unfold made
  rw [hread, Slots.reported, Slots.reported, Move.make_slot, hcell]

/-- Two passes, of which one visits the reads on a descriptor only. -/
structure PassPart {β : Type} (fd : Fd) (R : β → β → Prop) (x part : List Visit × β) : Prop where
  visits : part.1 = x.1.filter (·.fd = fd)
  world : R x.2 part.2

namespace PassPart

variable {β : Type} {fd : Fd} {R : β → β → Prop} {x part : List Visit × β} {v : Visit}

theorem keep (h : PassPart fd R x part) (hv : v.fd = fd) :
    PassPart fd R (x.map (v :: ·) id) (part.map (v :: ·) id) := by
  refine ⟨?_, h.world⟩
  dsimp only [Prod.map]
  rw [List.filter_cons, if_pos (decide_eq_true hv), h.visits]

theorem drop (h : PassPart fd R x part) (hv : v.fd ≠ fd) :
    PassPart fd R (x.map (v :: ·) id) part := by
  refine ⟨?_, h.world⟩
  dsimp only [Prod.map]
  rw [List.filter_cons, if_neg (mt of_decide_eq_true hv), h.visits]

end PassPart

section Passes

variable {δ : Type} {device : Device δ} {d₀ : δ} {fd : Fd} {own : SlotId → Prop}
  {es : List QueueEntry}

structure SharedPart (device : Device δ) (d₀ : δ) (fd : Fd) (own : SlotId → Prop)
    (w part : Recorded δ DeviceCall × Slots) : Prop where
  device : device.Follows d₀ fd w.1 part.1
  slots : w.2.Alike own part.2

variable {w part : Recorded δ DeviceCall × Slots}

theorem SharedPart.drive (hd : device.Separable d₀) (asyncReads : Bool) {r : Read} (hfd : r.fd = fd)
    (hr : own r.slot) (h : SharedPart device d₀ fd own w part) :
    (device.recorded.driveMove asyncReads r w.1).1 =
        (device.recorded.driveMove asyncReads r part.1).1 ∧
      SharedPart device d₀ fd own
        ((device.recorded.driveMove asyncReads r w.1).2,
          ((device.recorded.driveMove asyncReads r w.1).1.make r w.2).2)
        ((device.recorded.driveMove asyncReads r part.1).2,
          ((device.recorded.driveMove asyncReads r w.1).1.make r part.2).2) := by
  subst hfd
  obtain ⟨hmove, hdevice⟩ := h.device.driveMove hd asyncReads
  exact ⟨hmove, hdevice, (h.slots.make hr _).2⟩

theorem SharedPart.drive_other (asyncReads : Bool) {r : Read} (hfd : r.fd ≠ fd)
    (hr : ¬ own r.slot) (h : SharedPart device d₀ fd own w part) :
    SharedPart device d₀ fd own
      ((device.recorded.driveMove asyncReads r w.1).2,
        ((device.recorded.driveMove asyncReads r w.1).1.make r w.2).2) part :=
  ⟨h.device.driveMove_other asyncReads hfd, h.slots.make_other hr _⟩

theorem pollPass_part (hd : device.Separable d₀) (asyncReads : Bool)
    (hes : ∀ e ∈ es, own e.read.slot ↔ e.read.fd = fd) {claimed claimed' : List Fd}
    (hclaimed : fd ∈ claimed' ↔ fd ∈ claimed) (h : SharedPart device d₀ fd own w part) :
    PassPart fd (SharedPart device d₀ fd own) (pollPass device.recorded asyncReads claimed es w)
      (pollPass device.recorded asyncReads claimed' (es.filter (·.read.fd = fd)) part) := by
  induction es generalizing claimed claimed' w part with
  | nil => exact ⟨rfl, h⟩
  | cons e rest ih =>
    obtain ⟨he, hes⟩ := List.forall_mem_cons.mp hes
    by_cases hfd : e.read.fd = fd
    · rw [List.filter_cons, if_pos (decide_eq_true hfd), pollPass, pollPass]
      subst hfd
      by_cases hin : e.read.fd ∈ claimed
      · rw [if_pos hin, if_pos (hclaimed.mpr hin)]
        exact (ih hes hclaimed h).keep rfl
      · rw [if_neg hin, if_neg (mt hclaimed.mp hin)]
        have hown : own e.read.slot := he.mpr rfl
        obtain ⟨hmove, hdriven⟩ := h.drive hd asyncReads rfl hown
        dsimp only
        rw [← hmove, Visit.made_make h.slots hown, (h.slots.make hown _).1]
        refine (ih hes ?_ hdriven).keep rfl
        split
        · exact hclaimed
        · exact iff_of_true List.mem_cons_self List.mem_cons_self
    · rw [List.filter_cons, if_neg (mt of_decide_eq_true hfd), pollPass]
      split
      · exact (ih hes hclaimed h).drop hfd
      · refine (ih hes ?_ (h.drive_other asyncReads hfd (mt he.mp hfd))).drop hfd
        split
        · exact hclaimed
        · rw [List.mem_cons, or_iff_right (Ne.symm hfd)]
          exact hclaimed

theorem cancelPass_part (selected : QueueEntry → Bool)
    (hes : ∀ e ∈ es, own e.read.slot ↔ e.read.fd = fd) {slots slots' : Slots}
    (h : slots.Alike own slots') :
    PassPart fd (Slots.Alike own) (cancelPass selected es slots)
      (cancelPass selected (es.filter (·.read.fd = fd)) slots') := by
  induction es generalizing slots slots' with
  | nil => exact ⟨rfl, h⟩
  | cons e rest ih =>
    obtain ⟨he, hes⟩ := List.forall_mem_cons.mp hes
    by_cases hfd : e.read.fd = fd
    · rw [List.filter_cons, if_pos (decide_eq_true hfd), cancelPass, cancelPass]
      split
      · have hown : own e.read.slot := he.mpr hfd
        dsimp only
        rw [Visit.made_make h hown]
        exact (ih hes (h.make hown _).2).keep hfd
      · exact (ih hes h).keep hfd
    · rw [List.filter_cons, if_neg (mt of_decide_eq_true hfd), cancelPass]
      split
      · exact (ih hes (h.make_other (mt he.mp hfd) _)).drop hfd
      · exact (ih hes h).drop hfd

theorem cancelPass_none {selected : QueueEntry → Bool} (hes : ∀ e ∈ es, selected e = false)
    (slots : Slots) : cancelPass selected es slots = (es.map Visit.skipped, slots) := by
  induction es with
  | nil => rfl
  | cons e rest ih =>
    obtain ⟨he, hes⟩ := List.forall_mem_cons.mp hes
    rw [cancelPass, he, if_neg Bool.false_ne_true, ih hes]
    rfl

theorem mem_slotsOf_on (hunshared : (slotsOf es).Nodup) (fd : Fd) : ∀ e ∈ es,
    e.read.slot ∈ slotsOf (es.filter (·.read.fd = fd)) ↔ e.read.fd = fd := by
  refine fun e he => ⟨fun hmem => ?_, fun hfd => ?_⟩
  · obtain ⟨e', he', hslot⟩ := List.mem_map.mp hmem
    obtain ⟨hmem, hfd⟩ := List.mem_filter.mp he'
    rw [← List.inj_on_of_nodup_map hunshared hmem he hslot]
    exact of_decide_eq_true hfd
  · exact List.mem_map_of_mem (List.mem_filter.mpr ⟨he, decide_eq_true hfd⟩)

end Passes

inductive QueueCall where
  | submit (pid : ProcessId) (r : Read)
  | pollAll
  | cancelProcess (pid : ProcessId)
  | cancelDescriptor (fd : Fd)

namespace QueueCall

variable {δ μ : Type}

/-- A descriptor is not concerned by submissions to others and cancellations on others. -/
def concerns (fd : Fd) : QueueCall → Bool
  | submit _ r => r.fd = fd
  | pollAll => true
  | cancelProcess _ => true
  | cancelDescriptor other => other = fd

def submission? : QueueCall → Option QueueEntry
  | submit pid r => some ⟨pid, r⟩
  | _ => none

def queuePart : Focus (ReadQueue × IoWorld δ μ) ReadQueue :=
  ⟨fun ⟨q, world⟩ => (q, fun q => (q, world))⟩

def run (backend : Backend δ μ) : QueueCall → Op (ReadQueue × IoWorld δ μ) (List Completion)
  | submit pid r => do
    Op.zoom queuePart (ReadQueue.submit pid r)
    return []
  | pollAll => ReadQueue.pollAll backend
  | cancelProcess pid => ReadQueue.cancelProcess backend.mapper pid
  | cancelDescriptor fd => ReadQueue.cancelDescriptor backend.mapper fd

def runAll (backend : Backend δ μ) :
    List QueueCall → Op (ReadQueue × IoWorld δ μ) (List Completion)
  | [] => return []
  | call :: calls => do
    let ended ← call.run backend
    let later ← runAll backend calls
    return ended ++ later

/-- A queue with what its reads work in, the mapper left out. -/
structure View (δ : Type) where
  entries : List QueueEntry
  device : δ
  slots : Slots

namespace View

def of (s : ReadQueue × IoWorld δ μ) : View δ :=
  ⟨s.1.entries, s.2.device, s.2.slots⟩

def visited (x : List Visit × (δ × Slots)) : List Completion × View δ :=
  (x.1.filterMap Visit.completion?, ⟨x.1.filterMap Visit.kept?, x.2.1, x.2.2⟩)

def cancel (selected : QueueEntry → Bool) (v : View δ) : List Completion × View δ :=
  visited ((cancelPass selected v.entries v.slots).1, v.device,
    (cancelPass selected v.entries v.slots).2)

theorem cancel_none {selected : QueueEntry → Bool} {v : View δ}
    (h : ∀ e ∈ v.entries, selected e = false) : v.cancel selected = ([], v) := by
  have hcompletions : (v.entries.map Visit.skipped).filterMap Visit.completion? = [] := by
    rw [List.filterMap_map]
    exact List.filterMap_eq_nil_iff.mpr fun _ _ => rfl
  have hkept : (v.entries.map Visit.skipped).filterMap Visit.kept? = v.entries := by
    rw [List.filterMap_map]
    exact List.filterMap_some
  rw [cancel, cancelPass_none h]
  dsimp only [visited]
  rw [hcompletions, hkept]

end View

def effect (device : Device δ) (asyncReads : Bool) (v : View δ) :
    QueueCall → List Completion × View δ
  | submit pid r => ([], { v with entries := v.entries ++ [⟨pid, r⟩] })
  | pollAll => View.visited (pollPass device asyncReads [] v.entries (v.device, v.slots))
  | cancelProcess pid => v.cancel (·.pid = pid)
  | cancelDescriptor fd => v.cancel (·.read.fd = fd)

def effects (device : Device δ) (asyncReads : Bool) :
    View δ → List QueueCall → List Completion × View δ
  | v, [] => ([], v)
  | v, call :: calls =>
    let first := call.effect device asyncReads v
    let later := effects device asyncReads first.2 calls
    (first.1 ++ later.1, later.2)

theorem cancelWhere_leads (mapper : AliasMapper μ) (selected : QueueEntry → Bool)
    (s : ReadQueue × IoWorld δ μ) :
    (ReadQueue.cancelWhere mapper selected).Leads (¬ mapper.Answers) s fun ended t =>
      (ended, View.of t) = (View.of s).cancel selected := by
  refine (ReadQueue.cancelWhere_visits selected s).mono ?_
  rintro ended ⟨⟨entries⟩, device, m, slots⟩ ⟨hvisited, hdevice, hslots⟩
  obtain rfl := hvisited.ended
  obtain rfl := hvisited.entries
  dsimp only at hdevice hslots
  rw [hdevice, hslots]
  rfl

theorem run_leads (backend : Backend δ μ) (call : QueueCall) (s : ReadQueue × IoWorld δ μ) :
    (call.run backend).Leads (¬ backend.mapper.Answers) s fun ended t =>
      (ended, View.of t) = call.effect backend.device backend.asyncReads (View.of s) := by
  cases call with
  | submit pid r => exact fun events => rfl
  | pollAll =>
    refine (ReadQueue.pollAll_visits s).mono ?_
    rintro ended ⟨⟨entries⟩, device, m, slots⟩ ⟨hvisited, hshared⟩
    obtain rfl := hvisited.ended
    obtain rfl := hvisited.entries
    obtain ⟨hdevice, hslots⟩ := Prod.mk.inj hshared
    dsimp only at hdevice hslots
    rw [hdevice, hslots]
    rfl
  | cancelProcess pid => exact cancelWhere_leads _ _ s
  | cancelDescriptor fd => exact cancelWhere_leads _ _ s

theorem runAll_leads (backend : Backend δ μ) (calls : List QueueCall)
    (s : ReadQueue × IoWorld δ μ) :
    (runAll backend calls).Leads (¬ backend.mapper.Answers) s fun ended t =>
      (ended, View.of t) = effects backend.device backend.asyncReads (View.of s) calls := by
  induction calls generalizing s with
  | nil => exact fun events => rfl
  | cons call calls ih =>
    refine (call.run_leads backend s).bind ?_
    intro ended t hfirst
    refine (ih t).bind ?_
    intro later u hlater
    have hrest : (later, View.of u) = effects backend.device backend.asyncReads
        (call.effect backend.device backend.asyncReads (View.of s)).2 calls := by
      rw [hlater, ← hfirst]
    intro events
    dsimp only [effects]
    rw [← hrest, ← hfirst]
    rfl

/-- Of a queue and what its reads work in, the part of one descriptor. -/
structure Part (device : Device δ) (d₀ : δ) (fd : Fd) (own : SlotId → Prop)
    (v part : View (Recorded δ DeviceCall)) : Prop where
  owned : ∀ e ∈ v.entries, own e.read.slot ↔ e.read.fd = fd
  entries : part.entries = v.entries.filter (·.read.fd = fd)
  shared : SharedPart device d₀ fd own (v.device, v.slots) (part.device, part.slots)

structure Splits (device : Device δ) (d₀ : δ) (fd : Fd) (own : SlotId → Prop)
    (x part : List Completion × View (Recorded δ DeviceCall)) : Prop where
  completions : part.1 = x.1.filter (·.fd = fd)
  left : Part device d₀ fd own x.2 part.2

variable {device : Device δ} {d₀ : δ} {fd : Fd} {own : SlotId → Prop}
  {v part : View (Recorded δ DeviceCall)} {call : QueueCall}

namespace Part

theorem visited (h : Part device d₀ fd own v part)
    {x y : List Visit × (Recorded δ DeviceCall × Slots)}
    (hvisits : Visits v.entries v.slots x.1 x.2.2)
    (hpart : PassPart fd (SharedPart device d₀ fd own) x y) :
    Splits device d₀ fd own (View.visited x) (View.visited y) := by
  dsimp only [View.visited]
  rw [hpart.visits]
  refine ⟨(Visits.completions_on hvisits.follows fd).symm, fun e he => ?_,
    (Visits.kept_on hvisits.follows fd).symm, hpart.world⟩
  obtain ⟨visit, hvisit, hbefore, rfl⟩ := hvisits.exists_kept he
  have hread := (hvisits.follows visit hvisit).read
  rw [hread.slot, hread.fd]
  exact h.owned _ hbefore

theorem cancel (h : Part device d₀ fd own v part) (selected : QueueEntry → Bool) :
    Splits device d₀ fd own (v.cancel selected) (part.cancel selected) := by
  refine h.visited (ReadQueue.cancelPass_visits selected v.entries v.slots) ?_
  have hpass := cancelPass_part selected h.owned h.shared.slots
  rw [← h.entries] at hpass
  exact ⟨hpass.visits, h.shared.device, hpass.world⟩

theorem submit (h : Part device d₀ fd own v part) {e : QueueEntry}
    (he : own e.read.slot ↔ e.read.fd = fd) {entries : List QueueEntry}
    (hentries : entries = part.entries ++ [e].filter (·.read.fd = fd)) :
    Splits device d₀ fd own ([], { v with entries := v.entries ++ [e] })
      ([], { part with entries }) := by
  refine ⟨rfl, ?_, ?_, h.shared⟩
  · exact List.forall_mem_append.mpr ⟨h.owned, List.forall_mem_singleton.mpr he⟩
  · rw [hentries, h.entries, List.filter_append]

theorem effect (h : Part device d₀ fd own v part) (hd : device.Separable d₀) (asyncReads : Bool)
    (hcall : ∀ e ∈ call.submission?, own e.read.slot ↔ e.read.fd = fd)
    (hconcerns : call.concerns fd = true) :
    Splits device d₀ fd own (call.effect device.recorded asyncReads v)
      (call.effect device.recorded asyncReads part) := by
  cases call with
  | submit pid r =>
    have hkept : [(⟨pid, r⟩ : QueueEntry)].filter (·.read.fd = fd) = [⟨pid, r⟩] :=
      List.filter_cons_of_pos hconcerns
    exact h.submit (hcall _ rfl) (congrArg (part.entries ++ ·) hkept.symm)
  | pollAll =>
    refine h.visited (ReadQueue.pollPass_visits _ _ _ _ (_, _)) ?_
    rw [h.entries]
    exact pollPass_part hd asyncReads h.owned Iff.rfl h.shared
  | cancelProcess pid => exact h.cancel _
  | cancelDescriptor other => exact h.cancel _

theorem effect_other (h : Part device d₀ fd own v part) (asyncReads : Bool)
    (hcall : ∀ e ∈ call.submission?, own e.read.slot ↔ e.read.fd = fd)
    (hconcerns : call.concerns fd = false) :
    Splits device d₀ fd own (call.effect device.recorded asyncReads v) ([], part) := by
  cases call with
  | submit pid r =>
    refine h.submit (hcall _ rfl) ?_
    have hdropped : [(⟨pid, r⟩ : QueueEntry)].filter (·.read.fd = fd) = [] :=
      List.filter_cons_of_neg (Bool.eq_false_iff.mp hconcerns)
    rw [hdropped, List.append_nil]
  | pollAll => cases hconcerns
  | cancelProcess pid => cases hconcerns
  | cancelDescriptor other =>
    have hother : other ≠ fd := of_decide_eq_false hconcerns
    have hnone : ∀ e ∈ part.entries, decide (e.read.fd = other) = false := by
      rw [h.entries]
      intro e he
      have hfd : e.read.fd = fd := of_decide_eq_true (List.mem_filter.mp he).2
      exact decide_eq_false (hfd ▸ hother.symm)
    have hcancel := h.cancel (·.read.fd = other)
    rwa [View.cancel_none hnone] at hcancel

theorem effects (h : Part device d₀ fd own v part) (hd : device.Separable d₀) (asyncReads : Bool)
    {calls : List QueueCall}
    (hcalls : ∀ e ∈ calls.filterMap submission?, own e.read.slot ↔ e.read.fd = fd) :
    Splits device d₀ fd own (effects device.recorded asyncReads v calls)
      (effects device.recorded asyncReads part (calls.filter (·.concerns fd))) := by
  induction calls generalizing v part with
  | nil => exact ⟨rfl, h⟩
  | cons call calls ih =>
    have hcall : ∀ e ∈ call.submission?, own e.read.slot ↔ e.read.fd = fd := fun e he =>
      hcalls e (List.mem_filterMap.mpr ⟨call, List.mem_cons_self, he⟩)
    have hrest : ∀ e ∈ calls.filterMap submission?, own e.read.slot ↔ e.read.fd = fd := by
      intro e he
      obtain ⟨later, hlater, he⟩ := List.mem_filterMap.mp he
      exact hcalls e (List.mem_filterMap.mpr ⟨later, List.mem_cons_of_mem _ hlater, he⟩)
    cases hconcerns : call.concerns fd with
    | true =>
      have hfirst := h.effect hd asyncReads hcall hconcerns
      rw [List.filter_cons_of_pos hconcerns]
      obtain ⟨hcompletions, hleft⟩ := ih hfirst.left hrest
      refine ⟨?_, hleft⟩
      dsimp only [QueueCall.effects]
      rw [List.filter_append, hfirst.completions, hcompletions]
    | false =>
      have hfirst := h.effect_other asyncReads hcall hconcerns
      rw [List.filter_cons_of_neg (Bool.eq_false_iff.mp hconcerns)]
      obtain ⟨hcompletions, hleft⟩ := ih hfirst.left hrest
      refine ⟨?_, hleft⟩
      dsimp only [QueueCall.effects]
      rw [List.filter_append, ← hfirst.completions, hcompletions, List.nil_append]

end Part

/-- What two runs have in common where the second is about one descriptor. The slots in `own` are
those of the reads on it. -/
structure SameOn (fd : Fd) (own : List SlotId) (ended : List Completion)
    (t : ReadQueue × ObservedWorld δ μ) (ended' : List Completion)
    (t' : ReadQueue × ObservedWorld δ μ) : Prop where
  calls : t'.2.device.calls = t.2.device.calls.filter (·.fd = fd)
  completions : ended' = ended.filter (·.fd = fd)
  entries : t'.1.entries = t.1.entries.filter (·.read.fd = fd)
  owned : ∀ e ∈ t'.1.entries, e.read.slot ∈ own
  slots : ∀ id ∈ own, t'.2.slots.cells[id]? = t.2.slots.cells[id]?

/-- The calls that concern a descriptor, made on the reads on it alone, come to what all the calls
come to on that descriptor. -/
theorem runAll_concerning (backend : Backend δ μ) (hd : backend.device.Separable d₀) (q : ReadQueue)
    (calls : List QueueCall)
    (hunshared : (slotsOf (q.entries ++ calls.filterMap submission?)).Nodup) (fd : Fd) (m m' : μ)
    (slots : Slots) :
    (runAll backend.observed calls).Leads (¬ backend.mapper.Answers) (q, ⟨⟨d₀, []⟩, m, slots⟩)
      fun ended t => (runAll backend.observed (calls.filter (·.concerns fd))).Leads
        (¬ backend.mapper.Answers)
        (⟨q.entries.filter (·.read.fd = fd)⟩, ⟨⟨d₀, []⟩, m', slots⟩)
        fun ended' t' => SameOn fd
          (slotsOf ((q.entries ++ calls.filterMap submission?).filter (·.read.fd = fd)))
          ended t ended' t' := by
  have howned := mem_slotsOf_on hunshared fd
  generalize slotsOf ((q.entries ++ calls.filterMap submission?).filter (·.read.fd = fd)) = own
    at howned ⊢
  obtain ⟨hqueued, hcalls⟩ := List.forall_mem_append.mp howned
  have hstart : Part backend.device d₀ fd (· ∈ own) ⟨q.entries, ⟨d₀, []⟩, slots⟩
      ⟨q.entries.filter (·.read.fd = fd), ⟨d₀, []⟩, slots⟩ :=
    ⟨hqueued, rfl, .start _ _ _, fun _ _ => rfl⟩
  have hsplits := hstart.effects hd backend.asyncReads hcalls
  refine (runAll_leads backend.observed calls _).mono fun ended t hrun => ?_
  refine (runAll_leads backend.observed _ _).mono fun ended' t' hrun' => ?_
  change _ = QueueCall.effects backend.device.recorded backend.asyncReads _ _ at hrun hrun'
  dsimp only [View.of] at hrun hrun'
  rw [← hrun, ← hrun'] at hsplits
  obtain ⟨hcompletions, howns, hentries, hdevice, hslots⟩ := hsplits
  refine ⟨hdevice.calls, hcompletions, hentries, fun e he => ?_, hslots⟩
  dsimp only at hentries howns
  rw [hentries] at he
  obtain ⟨he, hfd⟩ := List.mem_filter.mp he
  exact (howns e he).mpr (of_decide_eq_true hfd)

def prompt : ScriptedDevice.State :=
  ⟨{ ready := some (.bytes .requested) }, [], [], #[]⟩

/-- A read of no bytes is submitted between two polls, and all reads on its descriptor are
cancelled. -/
def interleaved : List QueueCall :=
  [.pollAll, .submit ⟨2⟩ ⟨⟨3⟩, .zero, .zero, 0, none, .notStarted, 3⟩, .cancelDescriptor ⟨3⟩,
    .pollAll]

def fourSlots : Slots :=
  ⟨#[.empty, .empty, .empty, .empty]⟩

theorem runAll_concerning_interleaved : ∃ ended t ended' t',
    ScriptedDevice.device.Separable prompt ∧
    (slotsOf (ReadHost.threeReads ++ interleaved.filterMap submission?)).Nodup ∧
    runAll Backend.scripted.observed interleaved
      ⟨(⟨ReadHost.threeReads⟩, ⟨⟨prompt, []⟩, ReadHost.threeLoans, fourSlots⟩), #[]⟩ =
        .ok ended t ∧
    runAll Backend.scripted.observed [.pollAll, .pollAll]
      ⟨(⟨ReadHost.threeReads.drop 1⟩, ⟨⟨prompt, []⟩, ReadHost.threeLoans, fourSlots⟩), #[]⟩ =
        .ok ended' t' ∧
    SameOn ⟨4⟩ [1, 2] ended t.state ended' t'.state ∧
    ended'.map (·.result.toOption) = [some 8] ∧
    t'.state.1.entries.map (·.read.state) = [.inProgress] := by
  have hunshared : (slotsOf (ReadHost.threeReads ++ interleaved.filterMap submission?)).Nodup := by
    decide
  have hcalls : interleaved.filter (·.concerns ⟨4⟩) = [.pollAll, .pollAll] := rfl
  have hentries : ReadHost.threeReads.filter (·.read.fd = ⟨4⟩) = ReadHost.threeReads.drop 1 := rfl
  have hown : slotsOf ((ReadHost.threeReads ++ interleaved.filterMap submission?).filter
      (·.read.fd = ⟨4⟩)) = [1, 2] := by decide
  -- with the device kept general the runs are not evaluated before they are named
  obtain ⟨d, hprompt⟩ : ∃ d, d = prompt := ⟨_, rfl⟩
  have hd : Backend.scripted.device.Separable d := ScriptedDevice.separable d
  have hleads := runAll_concerning Backend.scripted hd ⟨ReadHost.threeReads⟩ interleaved hunshared
    ⟨4⟩ ReadHost.threeLoans ReadHost.threeLoans fourSlots
  dsimp only at hleads
  rw [hcalls, hentries, hown] at hleads
  obtain ⟨ended, t, hrun, hpart⟩ := hleads.answers (not_not_intro LedgerMapper.answers) #[]
  obtain ⟨ended', t', hrun', hsame⟩ := hpart.answers (not_not_intro LedgerMapper.answers) #[]
  have hview := (runAll_leads Backend.scripted.observed _ _).post hrun'
  subst hprompt
  have heffects : ∀ x, x = effects ScriptedDevice.device.recorded true
      ⟨ReadHost.threeReads.drop 1, ⟨prompt, []⟩, fourSlots⟩ [.pollAll, .pollAll] →
      x.1.map (·.result.toOption) = [some 8] ∧
        x.2.entries.map (·.read.state) = [.inProgress] := by
    rintro x rfl
    decide +kernel
  exact ⟨ended, t, ended', t', hd, hunshared, hrun, hrun', hsame, heffects _ hview⟩

end QueueCall
end PagedKernel
