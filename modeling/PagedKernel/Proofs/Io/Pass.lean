import Mathlib.Data.List.Forall2
import PagedKernel.Io.Queue
import PagedKernel.Proofs.Io.Read

/-! What a pass makes of the queue and of the slots. Every read it takes up goes on
waiting or ends, and a read that ends is reported with the result in its slot. -/

namespace PagedKernel

namespace Slots

variable {slots : Slots} {id other : SlotId}

theorem get?_resolve_of_ne (h : slots.Open id) (hne : other ≠ id) (result : ReadResult) :
    (slots.resolve id result).2.get? other = slots.get? other := by
  rw [resolve_of_open h, get?, get?, Array.getElem?_setIfInBounds_ne hne.symm]

end Slots

def QueueEntry.withState (e : QueueEntry) (state : ReadState) : QueueEntry :=
  { e with read := { e.read with state } }

namespace ReadQueue

variable {μ : Type} {back : Read → μ → μ → Prop} {m m' : μ} {slots slots' : Slots}
  {es kept left : List QueueEntry} {ended : List Completion} {slot : SlotId}

/-- A pass over some entries, in their order: those kept, the completions of those that
ended, and what the pass makes of mapper and slots. `back` says what the end of a read
makes of the mapper. -/
inductive Pass (back : Read → μ → μ → Prop) :
    μ → Slots → List QueueEntry → List Completion → List QueueEntry → μ → Slots → Prop
  | done (m : μ) (slots : Slots) : Pass back m slots [] [] [] m slots
  | keep {m m' : μ} {slots slots' : Slots} {e : QueueEntry} {rest kept : List QueueEntry}
    {ended : List Completion} {state : ReadState} :
    state.isTerminal = false → Pass back m slots rest ended kept m' slots' →
      Pass back m slots (e :: rest) ended (e.withState state :: kept) m' slots'
  | finish {m m₁ m' : μ} {slots slots' : Slots} {e : QueueEntry} {rest kept : List QueueEntry}
    {ended : List Completion} {result : ReadResult} :
    slots.Open e.read.slot → back e.read m m₁ →
      Pass back m₁ (slots.resolve e.read.slot result).2 rest ended kept m' slots' →
      Pass back m slots (e :: rest) (⟨e.pid, e.read.fd, result⟩ :: ended) kept m' slots'

def slotsOf (es : List QueueEntry) : List SlotId :=
  es.map fun e => e.read.slot

def readers (es : List QueueEntry) (slot : SlotId) : List (ProcessId × Fd) :=
  (es.filter fun e => e.read.slot = slot).map fun e => (e.pid, e.read.fd)

theorem readers_eq_nil : readers es slot = [] ↔ slot ∉ slotsOf es := by
  simp [readers, slotsOf]

theorem mem_readers {reader : ProcessId × Fd} :
    reader ∈ readers es slot ↔ ∃ e ∈ es, e.read.slot = slot ∧ (e.pid, e.read.fd) = reader := by
  simp [readers, and_assoc]

theorem readers_eq_singleton (hn : (slotsOf es).Nodup) {reader : ProcessId × Fd}
    (h : reader ∈ readers es slot) : readers es slot = [reader] := by
  induction es with
  | nil => cases h
  | cons e es ih =>
    obtain ⟨hfresh, hn⟩ := List.nodup_cons.mp hn
    by_cases he : e.read.slot = slot
    · have hcons : readers (e :: es) slot = (e.pid, e.read.fd) :: readers es slot := by
        simp [readers, he]
      have hrest : readers es slot = [] := readers_eq_nil.mpr (he ▸ hfresh)
      rw [hcons, hrest] at h ⊢
      rw [List.mem_singleton.mp h]
    · have hcons : readers (e :: es) slot = readers es slot := by
        simp [readers, he]
      rw [hcons] at h ⊢
      exact ih hn h

/-- A completion reports an entry: it carries its process and descriptor, and the value
its slot holds. -/
structure Reported (slots : Slots) (e : QueueEntry) (c : Completion) : Prop where
  pid : c.pid = e.pid
  fd : c.fd = e.read.fd
  value : slots.get? e.read.slot = some c.result

def departed (es kept : List QueueEntry) : List QueueEntry :=
  es.filter fun e => e.read.slot ∉ slotsOf kept

theorem readers_departed (h : slot ∉ slotsOf kept) :
    readers (departed es kept) slot = readers es slot := by
  rw [readers, readers, departed, List.filter_filter]
  congr 1
  refine List.filter_congr fun e _ => ?_
  by_cases he : e.read.slot = slot
  · simp [he, h]
  · simp [he]

theorem exists_reported (h : List.Forall₂ (Reported slots) left ended) {e : QueueEntry}
    (he : e ∈ left) : ∃ c ∈ ended, Reported slots e c := by
  induction h with
  | nil => cases he
  | @cons _ c _ _ hc _ ih =>
    rcases List.mem_cons.mp he with rfl | hrest
    · exact ⟨c, List.mem_cons_self, hc⟩
    · obtain ⟨c', hc', h⟩ := ih hrest
      exact ⟨c', List.mem_cons_of_mem _ hc', h⟩

/-- Among the completions that report some entries one by one, those for a slot. -/
def completionsFor (left : List QueueEntry) (ended : List Completion) (slot : SlotId) :
    List Completion :=
  ((left.zip ended).filter fun x => x.1.read.slot = slot).map (·.2)

theorem mem_of_completionsFor {c : Completion} (h : c ∈ completionsFor left ended slot) :
    c ∈ ended := by
  obtain ⟨x, hx, rfl⟩ := List.mem_map.mp h
  exact (List.of_mem_zip (List.mem_of_mem_filter hx)).2

theorem completionsFor_eq {result : ReadResult} (h : List.Forall₂ (Reported slots) left ended)
    (hvalue : slots.get? slot = some result) : completionsFor left ended slot =
      (readers left slot).map fun reader => ⟨reader.1, reader.2, result⟩ := by
  induction h with
  | nil => rfl
  | @cons e c left ended hc _ ih =>
    simp only [completionsFor, readers, List.zip_cons_cons] at ih ⊢
    by_cases he : e.read.slot = slot
    · obtain ⟨pid, fd, result'⟩ := c
      have hresult : result = result' := by
        have hv := hc.value
        rw [he, hvalue] at hv
        exact Option.some.inj hv
      obtain rfl : pid = e.pid := hc.pid
      obtain rfl : fd = e.read.fd := hc.fd
      simp only [he, decide_true, List.filter_cons_of_pos, List.map_cons, ih, hresult]
    · simp only [he, decide_false, Bool.false_eq_true, not_false_eq_true,
        List.filter_cons_of_neg, ih]

namespace Pass

theorem kept_mem (h : Pass back m slots es ended kept m' slots') :
    ∀ e' ∈ kept, ∃ e ∈ es, ∃ state, state.isTerminal = false ∧ e' = e.withState state := by
  induction h with
  | done => exact nofun
  | @keep _ _ _ _ e _ _ _ state hstate _ ih =>
    intro e' he'
    rcases List.mem_cons.mp he' with rfl | hrest
    · exact ⟨e, List.mem_cons_self, state, hstate, rfl⟩
    · obtain ⟨e₀, he₀, h⟩ := ih e' hrest
      exact ⟨e₀, List.mem_cons_of_mem _ he₀, h⟩
  | finish _ _ _ ih =>
    intro e' he'
    obtain ⟨e₀, he₀, h⟩ := ih e' he'
    exact ⟨e₀, List.mem_cons_of_mem _ he₀, h⟩

theorem slotsOf_subset (h : Pass back m slots es ended kept m' slots') :
    slotsOf kept ⊆ slotsOf es := by
  intro id hid
  obtain ⟨e', he', rfl⟩ := List.mem_map.mp hid
  obtain ⟨e, he, _, -, rfl⟩ := h.kept_mem e' he'
  exact List.mem_map.mpr ⟨e, he, rfl⟩

theorem kept_or_ended (h : Pass back m slots es ended kept m' slots') :
    ∀ e ∈ es, (∃ e' ∈ kept, e'.pid = e.pid) ∨ ∃ c ∈ ended, c.pid = e.pid := by
  induction h with
  | done => exact nofun
  | @keep _ _ _ _ e _ _ _ state _ _ ih =>
    intro e₀ he₀
    rcases List.mem_cons.mp he₀ with rfl | hrest
    · exact .inl ⟨_, List.mem_cons_self, rfl⟩
    · exact (ih e₀ hrest).imp_left fun ⟨e', he', h⟩ => ⟨e', List.mem_cons_of_mem _ he', h⟩
  | finish _ _ _ ih =>
    intro e₀ he₀
    rcases List.mem_cons.mp he₀ with rfl | hrest
    · exact .inr ⟨_, List.mem_cons_self, rfl⟩
    · exact (ih e₀ hrest).imp_right fun ⟨c, hc, h⟩ => ⟨c, List.mem_cons_of_mem _ hc, h⟩

theorem readers_sublist (h : Pass back m slots es ended kept m' slots') :
    (readers kept slot).Sublist (readers es slot) := by
  induction h with
  | done => exact .slnil
  | @keep _ _ _ _ e _ _ _ state _ _ ih =>
    by_cases he : e.read.slot = slot
    · simp only [readers, QueueEntry.withState, he, decide_true, List.filter_cons_of_pos,
        List.map_cons]
      exact ih.cons_cons _
    · simp only [readers, QueueEntry.withState, he, decide_false, Bool.false_eq_true,
        not_false_eq_true, List.filter_cons_of_neg]
      exact ih
  | @finish _ _ _ _ _ e _ _ _ _ _ _ _ ih =>
    refine ih.trans (List.Sublist.map _ (List.Sublist.filter _ ?_))
    exact List.sublist_cons_self _ _

theorem pids_sublist (h : Pass back m slots es ended kept m' slots') :
    (kept.map (·.pid)).Sublist (es.map (·.pid)) := by
  induction h with
  | done => exact .slnil
  | keep _ _ ih => exact ih.cons_cons _
  | finish _ _ _ ih => exact ih.cons _

theorem mapper {P : μ → Prop} (hP : ∀ r a b, back r a b → P a → P b)
    (h : Pass back m slots es ended kept m' slots') (hm : P m) : P m' := by
  induction h with
  | done => exact hm
  | keep _ _ ih => exact ih hm
  | finish _ hback _ ih => exact ih (hP _ _ _ hback hm)

theorem get?_of_notMem (h : Pass back m slots es ended kept m' slots') {id : SlotId}
    (hid : id ∉ slotsOf es) : slots'.get? id = slots.get? id := by
  induction h with
  | done => rfl
  | keep _ _ ih => exact ih fun hm => hid (List.mem_cons_of_mem _ hm)
  | finish hopen _ _ ih =>
    rw [ih fun hm => hid (List.mem_cons_of_mem _ hm)]
    exact Slots.get?_resolve_of_ne hopen (List.ne_of_not_mem_cons hid) _

theorem reports (h : Pass back m slots es ended kept m' slots') (hn : (slotsOf es).Nodup) :
    List.Forall₂ (Reported slots') (departed es kept) ended := by
  induction h with
  | done => exact .nil
  | @keep _ _ _ _ e rest kept _ state _ hrest ih =>
    have hfresh := (List.nodup_cons.mp hn).1
    have hsame : departed (e :: rest) (e.withState state :: kept) = departed rest kept := by
      rw [departed, List.filter_cons_of_neg (by simp [slotsOf, QueueEntry.withState])]
      refine List.filter_congr fun e' he' => ?_
      have hne : e'.read.slot ≠ e.read.slot := by
        intro he
        exact hfresh (List.mem_map.mpr ⟨e', he', he⟩)
      simp [slotsOf, QueueEntry.withState, hne]
    rw [hsame]
    exact ih (List.nodup_cons.mp hn).2
  | @finish _ _ _ slots _ e rest kept _ result hopen _ hrest ih =>
    have hfresh := (List.nodup_cons.mp hn).1
    have hgone : e.read.slot ∉ slotsOf kept := fun hm => hfresh (hrest.slotsOf_subset hm)
    rw [departed, List.filter_cons_of_pos (by simpa using hgone)]
    refine .cons ⟨rfl, rfl, ?_⟩ (ih (List.nodup_cons.mp hn).2)
    rw [hrest.get?_of_notMem hfresh]
    exact Slots.get?_resolve hopen result

end Pass
end ReadQueue
end PagedKernel
