import PagedKernel.Proofs.Operation

/-! Two weaker accounts of an operation. `Reduces` follows it up to a point from which
on it does what another operation does; until then nothing is reported at the error
level. `Leads` says what it answers, whatever it reports. -/

namespace PagedKernel.Op

variable {σ τ α β : Type} {gap gap' : Prop} {s t u : σ} {x y z : Op σ α}

def Reduces (x y : Op σ α) (s t : σ) : Prop :=
  ∀ events, ∃ later, x ⟨s, events⟩ = y ⟨t, later⟩ ∧ Quiet events later

namespace Reduces

theorem refl (x : Op σ α) (s : σ) : x.Reduces x s s :=
  fun events => ⟨events, rfl, .refl events⟩

theorem trans (h : x.Reduces y s t) (h' : y.Reduces z t u) : x.Reduces z s u := by
  intro events
  obtain ⟨later, hx, hq⟩ := h events
  obtain ⟨last, hy, hq'⟩ := h' later
  exact ⟨last, hx.trans hy, hq.trans hq'⟩

theorem bind (h : x.Reduces y s t) (f : α → Op σ β) : (x >>= f).Reduces (y >>= f) s t := by
  intro events
  obtain ⟨later, hx, hq⟩ := h events
  refine ⟨later, ?_, hq⟩
  simp only [Bind.bind, EStateM.bind, hx]

theorem meets {post : α → σ → Prop} (h : x.Reduces y s t) (hy : y.Meets gap t post) :
    x.Meets gap s post := by
  intro events
  obtain ⟨later, hx, hq⟩ := h events
  have hpost := hy later
  revert hpost
  rw [hx]
  cases y ⟨t, later⟩ with
  | ok a w => exact fun h => ⟨h.1, hq.trans h.2⟩
  | error e w => exact fun h => ⟨h.1, hq.trans h.2⟩

end Reduces

theorem Gives.bind_reduces {x : Op σ α} {f : α → Op σ β} {y : Op σ β} {a : α}
    (hx : x.Gives s a t) (hf : (f a).Reduces y t u) : (x >>= f).Reduces y s u := by
  intro events
  obtain ⟨later, hrun, hq⟩ := hx events
  obtain ⟨last, hy, hq'⟩ := hf later
  refine ⟨last, ?_, hq.trans hq'⟩
  simp only [Bind.bind, EStateM.bind, hrun, hy]

def Leads (gap : Prop) (x : Op σ α) (s : σ) (post : α → σ → Prop) : Prop :=
  ∀ events, match x ⟨s, events⟩ with
    | .ok a t => post a t.state
    | .error _ _ => gap

theorem Meets.leads {post : α → σ → Prop} (hx : x.Meets gap s post) : x.Leads gap s post := by
  intro events
  have h := hx events
  revert h
  cases x ⟨s, events⟩ with
  | ok a t => exact And.left
  | error e t => exact And.left

theorem Gives.leads {a : α} {p : α → σ → Prop} (hx : x.Gives s a t) (hp : p a t) :
    x.Leads gap s p :=
  (hx.meets hp).leads

theorem Reduces.leads {post : α → σ → Prop} (h : x.Reduces y s t) (hy : y.Leads gap t post) :
    x.Leads gap s post := by
  intro events
  obtain ⟨later, hx, -⟩ := h events
  rw [hx]
  exact hy later

theorem leads_any (x : Op σ α) (s : σ) : x.Leads True s fun _ _ => True := by
  intro events
  cases x ⟨s, events⟩ <;> trivial

theorem Leads.mono {post post' : α → σ → Prop} (hx : x.Leads gap s post)
    (hp : ∀ a t, post a t → post' a t) : x.Leads gap s post' := by
  intro events
  have h := hx events
  revert h
  cases x ⟨s, events⟩ with
  | ok a t => exact hp a t.state
  | error e t => exact id

theorem Leads.run {post : α → σ → Prop} (hx : x.Leads gap s post) :
    x.Leads gap s fun a t => post a t ∧ ∃ events later, x ⟨s, events⟩ = .ok a ⟨t, later⟩ := by
  intro events
  have h := hx events
  revert h
  cases hrun : x ⟨s, events⟩ with
  | ok a t => exact fun h => ⟨h, events, t.events, hrun⟩
  | error e t => exact id

theorem Leads.answers {post : α → σ → Prop} (hx : x.Leads gap s post) (hgap : ¬ gap)
    (events : Array Event) : ∃ a t, x ⟨s, events⟩ = .ok a t ∧ post a t.state := by
  have h := hx events
  revert h
  cases x ⟨s, events⟩ with
  | ok a t => exact fun h => ⟨a, t, rfl, h⟩
  | error e t => exact fun h => absurd h hgap

theorem leads_run (x : Op σ α) (s : σ) : x.Leads True s fun a t =>
    ∃ events later, x ⟨s, events⟩ = .ok a ⟨t, later⟩ :=
  (leads_any x s).run.mono fun _ _ => And.right

theorem Leads.widen {post : α → σ → Prop} (hx : x.Leads gap s post) (hg : gap → gap') :
    x.Leads gap' s post := by
  intro events
  have h := hx events
  revert h
  cases x ⟨s, events⟩ with
  | ok a t => exact id
  | error e t => exact hg

theorem Leads.bind {x : Op σ α} {f : α → Op σ β} {m : α → σ → Prop} {post : β → σ → Prop}
    (hx : x.Leads gap s m) (hf : ∀ a t, m a t → (f a).Leads gap t post) :
    (x >>= f).Leads gap s post := by
  intro events
  have h := hx events
  revert h
  simp only [Bind.bind, EStateM.bind]
  cases x ⟨s, events⟩ with
  | ok a t => exact fun h => hf a t.state h t.events
  | error e t => exact id

theorem Gives.bind_leads {x : Op σ α} {f : α → Op σ β} {a : α} {post : β → σ → Prop}
    (hx : x.Gives s a t) (hf : (f a).Leads gap t post) : (x >>= f).Leads gap s post := by
  refine (hx.leads (p := fun b u => b = a ∧ u = t) ⟨rfl, rfl⟩).bind ?_
  rintro b u ⟨rfl, rfl⟩
  exact hf

theorem Leads.post {post : α → σ → Prop} (hx : x.Leads gap s post) {events : Array Event} {a : α}
    {t : Traced σ} (hrun : x ⟨s, events⟩ = .ok a t) : post a t.state := by
  have h := hx events
  rw [hrun] at h
  exact h

theorem Leads.bind_pure {x : Op σ α} {f : α → Op σ α}
    (hx : x.Leads True s fun a _ => f a = pure a) : (x >>= f).Reduces x s s := by
  refine fun events => ⟨events, ?_, .refl events⟩
  have h := hx events
  revert h
  simp only [Bind.bind, EStateM.bind]
  cases x ⟨s, events⟩ with
  | ok a t =>
    intro h
    dsimp only at h ⊢
    rw [h]
    rfl
  | error e t => exact fun _ => rfl

theorem record_leads (e : Event) {post : Unit → σ → Prop} (h : post () s) :
    (record e : Op σ Unit).Leads gap s post :=
  fun _ => h

theorem record_bind_leads (e : Event) {f : Unit → Op σ β} {post : β → σ → Prop}
    (hf : (f ()).Leads gap s post) : (record e >>= f).Leads gap s post := by
  refine Leads.bind (m := fun _ t => t = s) (record_leads e rfl) ?_
  rintro - t rfl
  exact hf

theorem zoom_leads (part : Focus σ τ) {x : Op τ α} {post : α → σ → Prop}
    (hx : x.Leads gap (part.split s).1 fun a t => post a ((part.split s).2 t)) :
    (zoom part x).Leads gap s post := by
  intro events
  have h := hx events
  revert h
  simp only [zoom]
  cases x ⟨(part.split s).1, events⟩ with
  | ok a t => exact id
  | error e t => exact id

end PagedKernel.Op
