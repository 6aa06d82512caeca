import PagedKernel.Proofs.Io.Step

/-! A step of a read, for any device and any mapper that takes the loan back. The
read goes on waiting with its loan and its slot as they were, or it ends: then the
loan is gone, the slot holds a result, and nothing else has changed. -/

namespace PagedKernel

namespace Slots

variable {slots : Slots} {id other : SlotId}

def Open (slots : Slots) (id : SlotId) : Prop :=
  slots.cells[id]? = some .empty

theorem get?_of_open (h : slots.Open id) : slots.get? id = none := by
  rw [get?, h]
  rfl

theorem get?_congr {slots' : Slots} (h : slots'.cells[id]? = slots.cells[id]?) :
    slots'.get? id = slots.get? id := by
  rw [get?, get?, h]

theorem cell_handOut (h : id < slots.cells.size) :
    slots.handOut.2.cells[id]? = slots.cells[id]? :=
  Array.getElem?_push.trans (if_neg (Nat.ne_of_lt h))

theorem open_handOut (slots : Slots) : slots.handOut.2.Open slots.cells.size :=
  Array.getElem?_push_size

theorem open_of_handOut (h : slots.Open id) : slots.handOut.2.Open id :=
  (cell_handOut (Array.getElem?_eq_some_iff.mp h).1).trans h

theorem resolve_of_open (h : slots.Open id) (result : ReadResult) :
    slots.resolve id result = (.ok (), ⟨slots.cells.setIfInBounds id (.ready result)⟩) := by
  simp only [Open] at h
  simp only [resolve, h]
  rfl

theorem get?_resolve (h : slots.Open id) (result : ReadResult) :
    (slots.resolve id result).2.get? id = some result := by
  have hlt : id < slots.cells.size := (Array.getElem?_eq_some_iff.mp h).1
  rw [resolve_of_open h, get?, Array.getElem?_setIfInBounds_self_of_lt hlt]
  rfl

theorem open_resolve (h : slots.Open id) (hne : other ≠ id) (result : ReadResult) :
    (slots.resolve id result).2.Open other ↔ slots.Open other := by
  rw [resolve_of_open h, Open, Open, Array.getElem?_setIfInBounds_ne (Ne.symm hne)]

end Slots

namespace Read

variable {δ μ : Type} {gap : Prop} {mapper : AliasMapper μ} {back : μ → Prop}
  {s t u : Read × IoWorld δ μ}

def Takes (gap : Prop) (mapper : AliasMapper μ) (back : μ → Prop) (m : μ) : Option Loan → Prop
  | none => back m
  | some loan =>
    (mapper.takeBack loan.base loan.span).Meets gap m (fun _ m' => back m') fun _ _ => False

/-- A read that has not ended, whose slot is open, and whose loan can be taken back. -/
structure Live (gap : Prop) (mapper : AliasMapper μ) (back : μ → Prop)
    (s : Read × IoWorld δ μ) : Prop where
  state : s.1.state.isTerminal = false
  slot : s.2.slots.Open s.1.slot
  takes : Takes gap mapper back s.2.mapper s.1.loan

structure Waits (s t : Read × IoWorld δ μ) : Prop where
  read : t.1 = { s.1 with state := t.1.state }
  state : t.1.state.isTerminal = false
  mapper : t.2.mapper = s.2.mapper
  slots : t.2.slots = s.2.slots

/-- The read has ended: its loan is back and its slot holds the result. -/
structure Ends (back : μ → Prop) (result : ReadResult) (s t : Read × IoWorld δ μ) : Prop where
  read : t.1 = { s.1 with loan := none, state := t.1.state }
  state : t.1.state.isTerminal = true
  mapper : back t.2.mapper
  slots : t.2.slots = (s.2.slots.resolve s.1.slot result).2

def Steps (back : μ → Prop) (s t : Read × IoWorld δ μ) : Prop :=
  Waits s t ∨ ∃ result, Ends back result s t

theorem Waits.live (h : Waits s t) (hs : Live gap mapper back s) : Live gap mapper back t where
  state := h.state
  slot := by
    rw [h.slots, h.read]
    exact hs.slot
  takes := by
    rw [h.mapper, h.read]
    exact hs.takes

theorem Waits.trans (h : Waits s t) (h' : Steps back t u) : Steps back s u := by
  rcases h' with h' | ⟨result, h'⟩
  · refine .inl ⟨?_, h'.state, h'.mapper.trans h.mapper, h'.slots.trans h.slots⟩
    rw [h'.read, h.read]
  · refine .inr ⟨result, ?_, h'.state, h'.mapper, ?_⟩
    · rw [h'.read, h.read]
    · rw [h'.slots, h.slots, h.read]

theorem releaseLoan_meets (hs : Live gap mapper back s) :
    (releaseLoan mapper).Meets gap s fun _ t => t.1 = { s.1 with loan := none } ∧
      back t.2.mapper ∧ t.2.slots = s.2.slots := by
  obtain ⟨r, ⟨d, m, slots⟩⟩ := s
  have htakes := hs.takes
  unfold releaseLoan
  refine (Op.update_gives _).bind ?_
  dsimp only at htakes ⊢
  cases hl : r.loan with
  | none =>
    rw [hl] at htakes
    exact Op.pure_meets ⟨rfl, htakes, rfl⟩
  | some loan =>
    rw [hl] at htakes
    have hback : Call.Meets gap (mapper.takeBack loan.base loan.span) m (fun _ m' => back m')
        fun _ _ => False := htakes
    refine Op.Meets.bind (m := fun a t => a = .ok () ∧ t.1 = { r with loan := none } ∧
      back t.2.mapper ∧ t.2.slots = slots) ?_ ?_
    · refine Op.zoom_meets mapperPart (Op.Meets.mono hback ?_)
      intro a m' h
      cases a with
      | ok u => exact ⟨rfl, rfl, h, rfl⟩
      | error e => exact h.elim
    · rintro a t ⟨rfl, ht⟩
      exact Op.pure_meets ht

theorem resolve_gives (h : s.2.slots.Open s.1.slot) (result : ReadResult) :
    (resolve result).Gives s ()
      (s.1, ⟨s.2.device, s.2.mapper, (s.2.slots.resolve s.1.slot result).2⟩) := by
  obtain ⟨r, ⟨d, m, slots⟩⟩ := s
  have hok := congrArg Prod.fst (Slots.resolve_of_open h result)
  unfold resolve
  refine (Op.update_gives _).bind_gives ?_
  dsimp only at hok ⊢
  rw [hok]
  exact Op.pure_gives _

theorem finish_meets (hs : Live gap mapper back s) (result : ReadResult) :
    (finish mapper result).Meets gap s fun _ t => Ends back result s t := by
  unfold finish
  refine (releaseLoan_meets hs).bind ?_
  rintro - t ⟨hread, hback, hslots⟩
  have tail : ∀ state : ReadState, state.isTerminal = true →
      (resolve result : Op (Read × IoWorld δ μ) Unit).Meets gap ({ t.1 with state }, t.2)
        fun _ u => Ends back result s u := by
    intro state hstate
    have hopen : t.2.slots.Open t.1.slot := by
      rw [hslots, hread]
      exact hs.slot
    refine (resolve_gives (s := ({ t.1 with state }, t.2)) hopen result).meets ?_
    refine ⟨by rw [hread], hstate, hback, ?_⟩
    rw [hslots, hread]
  refine (current_gives t).bind ?_
  cases result with
  | ok n =>
    refine (setState_gives .done t).bind ?_
    exact (Op.record_gives (by rintro ⟨⟩)).bind (tail .done rfl)
  | error cause =>
    refine (setState_gives .failed t).bind ?_
    exact (Op.record_gives (by rintro ⟨⟩)).bind (tail .failed rfl)

theorem settle_meets (hs : Live gap mapper back s) {move : Move}
    (hwait : ∀ state, move = .wait state → state.isTerminal = false) :
    (settle mapper move).Meets gap s fun state t => state = t.1.state ∧ Steps back s t := by
  cases move with
  | wait state =>
    exact (settle_wait_gives state s).meets ⟨rfl, .inl ⟨rfl, hwait state rfl, rfl, rfl⟩⟩
  | finish result =>
    refine (finish_meets hs result).bind fun _ t ht => ?_
    exact (current_gives t).bind (Op.pure_meets ⟨rfl, .inr ⟨result, ht⟩⟩)

theorem comes_meets {x : Op (Read × IoWorld δ μ) ReadState} {move : Move} {state : ReadState}
    {d : δ} (hs : Live gap mapper back s) (hstate : state.isTerminal = false)
    (hwait : ∀ state, move = .wait state → state.isTerminal = false)
    (hx : x.Reduces (settle mapper move) s (withDevice ({ s.1 with state }, s.2) d)) :
    x.Meets gap s fun state t => state = t.1.state ∧ Steps back s t := by
  have hw : Waits s (withDevice ({ s.1 with state }, s.2) d) := ⟨rfl, hstate, rfl, rfl⟩
  exact hx.meets ((settle_meets (hw.live hs) hwait).mono fun _ _ h => ⟨h.1, hw.trans h.2⟩)

theorem cancel_meets (hs : Live gap mapper back s) :
    (cancel mapper).Meets gap s fun _ t => Ends back (.error .cancelled) s t := by
  unfold cancel
  refine (current_gives s).bind ?_
  rw [hs.state]
  refine (finish_meets hs _).bind ?_
  exact fun _ t ht => Op.pure_meets ht

end Read
end PagedKernel
