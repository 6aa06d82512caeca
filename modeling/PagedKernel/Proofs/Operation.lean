import PagedKernel.Log.Operation

/-! What an operation does from a given state. `Gives` fixes the answer and the
state afterwards; `Meets` bounds them by a relation and confines faults to the
case `gap`. In both, nothing is reported at the error level. -/

namespace PagedKernel

/-- The later events continue the earlier ones, and no new one is an error. -/
def Quiet (before after : Array Event) : Prop :=
  ∃ new : List Event, after.toList = before.toList ++ new ∧ ∀ e ∈ new, e.level ≠ .error

namespace Quiet

theorem refl (events : Array Event) : Quiet events events :=
  ⟨[], by simp, by simp⟩

theorem trans {a b c : Array Event} (hab : Quiet a b) (hbc : Quiet b c) : Quiet a c := by
  obtain ⟨new, hb, hn⟩ := hab
  obtain ⟨newer, hc, hr⟩ := hbc
  refine ⟨new ++ newer, by rw [hc, hb, List.append_assoc], ?_⟩
  intro e he
  rcases List.mem_append.mp he with h | h
  · exact hn e h
  · exact hr e h

theorem push (events : Array Event) {e : Event} (he : e.level ≠ .error) :
    Quiet events (events.push e) := by
  refine ⟨[e], by simp, ?_⟩
  intro d hd
  rw [List.mem_singleton.mp hd]
  exact he

end Quiet

namespace Op

variable {σ τ α β : Type} {gap : Prop} {s s' : σ}

/-- From `s` the operation answers `a` and leaves `s'`. -/
def Gives (x : Op σ α) (s : σ) (a : α) (s' : σ) : Prop :=
  ∀ events, ∃ later, x ⟨s, events⟩ = .ok a ⟨s', later⟩ ∧ Quiet events later

/-- From `s` the operation answers as `post` says; it faults in the case `gap`
at most. -/
def Meets (gap : Prop) (x : Op σ α) (s : σ) (post : α → σ → Prop) : Prop :=
  ∀ events, match x ⟨s, events⟩ with
    | .ok a t => post a t.state ∧ Quiet events t.events
    | .error _ t => gap ∧ Quiet events t.events

theorem Gives.meets {x : Op σ α} {a : α} {p : α → σ → Prop} (hx : x.Gives s a s')
    (hp : p a s') : x.Meets gap s p := by
  intro events
  obtain ⟨later, hrun, hq⟩ := hx events
  rw [hrun]
  exact ⟨hp, hq⟩

theorem Meets.gives {x : Op σ α} {a : α}
    (hx : x.Meets False s fun b t => b = a ∧ t = s') : x.Gives s a s' := by
  intro events
  have h := hx events
  revert h
  cases hrun : x ⟨s, events⟩ with
  | ok b t =>
    rintro ⟨⟨rfl, rfl⟩, hq⟩
    exact ⟨t.events, rfl, hq⟩
  | error f t => exact fun h => h.1.elim

theorem Meets.exists_answer {x : Op σ α} {post : α → σ → Prop} (hx : x.Meets False s post)
    (events : Array Event) : ∃ a t, x ⟨s, events⟩ = .ok a t ∧ post a t.state := by
  have h := hx events
  revert h
  cases x ⟨s, events⟩ with
  | ok a t => exact fun h => ⟨a, t, rfl, h.1⟩
  | error f t => exact fun h => h.1.elim

theorem bind_eq_ok {x : Op σ α} {f : α → Op σ β} {s t : Traced σ} {b : β} :
    (x >>= f) s = .ok b t ↔ ∃ a u, x s = .ok a u ∧ f a u = .ok b t := by
  simp only [Bind.bind, EStateM.bind]
  cases x s with
  | ok a u =>
    refine ⟨fun h => ⟨a, u, rfl, h⟩, ?_⟩
    rintro ⟨_, _, he, h⟩
    cases he
    exact h
  | error e u =>
    refine ⟨nofun, ?_⟩
    rintro ⟨_, _, he, -⟩
    cases he

theorem Meets.mono {x : Op σ α} {post post' : α → σ → Prop} (hx : x.Meets gap s post)
    (hp : ∀ a t, post a t → post' a t) : x.Meets gap s post' := by
  intro events
  have h := hx events
  revert h
  cases x ⟨s, events⟩ with
  | ok a t => exact fun h => ⟨hp a t.state h.1, h.2⟩
  | error f t => exact id

theorem Meets.widen {gap' : Prop} {x : Op σ α} {post : α → σ → Prop} (hx : x.Meets gap s post)
    (hg : gap → gap') : x.Meets gap' s post := by
  intro events
  have h := hx events
  revert h
  cases x ⟨s, events⟩ with
  | ok a t => exact id
  | error f t => exact fun h => ⟨hg h.1, h.2⟩

def outcome? (x : Op σ α) (s : σ) : Option (α × Traced σ) :=
  match x ⟨s, #[]⟩ with
  | .ok a t => some (a, t)
  | .error _ _ => none

theorem run_of_outcome? {x : Op σ α} {a : α} {t : Traced σ} (h : x.outcome? s = some (a, t)) :
    x ⟨s, #[]⟩ = .ok a t := by
  unfold outcome? at h
  split at h
  · next hrun =>
    cases h
    exact hrun
  · cases h

theorem Meets.post {x : Op σ α} {post : α → σ → Prop} (hx : x.Meets gap s post)
    {events : Array Event} {a : α} {t : Traced σ} (hrun : x ⟨s, events⟩ = .ok a t) :
    post a t.state ∧ Quiet events t.events := by
  have h := hx events
  rw [hrun] at h
  exact h

theorem Meets.of_fault {x : Op σ α} {post : α → σ → Prop} (hx : x.Meets gap s post)
    {events : Array Event} {f : Fault} {t : Traced σ} (hrun : x ⟨s, events⟩ = .error f t) :
    gap := by
  have h := hx events
  rw [hrun] at h
  exact h.1

theorem Meets.bind {x : Op σ α} {f : α → Op σ β} {m : α → σ → Prop} {post : β → σ → Prop}
    (hx : x.Meets gap s m) (hf : ∀ a t, m a t → (f a).Meets gap t post) :
    (x >>= f).Meets gap s post := by
  intro events
  have h := hx events
  revert h
  simp only [Bind.bind, EStateM.bind]
  cases x ⟨s, events⟩ with
  | ok a t =>
    rintro ⟨hm, hq⟩
    have hy := hf a t.state hm t.events
    revert hy
    dsimp only
    cases f a ⟨t.state, t.events⟩ with
    | ok b u => exact fun hy => ⟨hy.1, hq.trans hy.2⟩
    | error e u => exact fun hy => ⟨hy.1, hq.trans hy.2⟩
  | error e t => exact id

theorem Gives.bind {x : Op σ α} {f : α → Op σ β} {a : α} {post : β → σ → Prop}
    (hx : x.Gives s a s') (hf : (f a).Meets gap s' post) : (x >>= f).Meets gap s post := by
  refine (hx.meets (p := fun b t => b = a ∧ t = s') ⟨rfl, rfl⟩).bind ?_
  rintro b t ⟨rfl, rfl⟩
  exact hf

theorem Gives.bind_gives {x : Op σ α} {f : α → Op σ β} {a : α} {b : β} {t : σ}
    (hx : x.Gives s a s') (hf : (f a).Gives s' b t) : (x >>= f).Gives s b t :=
  (hx.bind (hf.meets ⟨rfl, rfl⟩)).gives

theorem pure_gives (a : α) : (pure a : Op σ α).Gives s a s :=
  fun events => ⟨events, rfl, .refl events⟩

theorem pure_meets {a : α} {post : α → σ → Prop} (h : post a s) :
    (pure a : Op σ α).Meets gap s post :=
  (pure_gives a).meets h

theorem record_gives {e : Event} (he : e.level ≠ .error) : (record e : Op σ Unit).Gives s () s :=
  fun events => ⟨events.push e, rfl, .push events he⟩

theorem fault_meets {f : Fault} {post : α → σ → Prop} (h : gap) :
    (fault f : Op σ α).Meets gap s post :=
  fun events => ⟨h, .refl events⟩

theorem read_gives (f : σ → α) : (read f).Gives s (f s) s :=
  fun events => ⟨events, rfl, .refl events⟩

theorem inspect_gives {f : σ → Except Fault α} {a : α} (h : f s = .ok a) :
    (inspect f).Gives s a s := by
  intro events
  refine ⟨events, ?_, .refl events⟩
  simp only [inspect, h]

theorem inspect_meets {f : σ → Except Fault α} {post : α → σ → Prop}
    (h : ∀ a, f s = .ok a → post a s) (hg : gap) : (inspect f).Meets gap s post := by
  intro events
  simp only [inspect]
  cases hf : f s with
  | ok a => exact ⟨h a hf, .refl events⟩
  | error e => exact ⟨hg, .refl events⟩

theorem inspect_faults {f : σ → Except Fault α} {e : Fault} {post : α → σ → Prop}
    (h : f s = .error e) (hg : gap) : (inspect f).Meets gap s post :=
  inspect_meets (fun _ ha => nomatch ha.symm.trans h) hg

theorem update_gives (f : σ → α × σ) : (update f).Gives s (f s).1 (f s).2 :=
  fun events => ⟨events, rfl, .refl events⟩

theorem modify_gives (f : σ → σ) : (modify f).Gives s () (f s) :=
  fun events => ⟨events, rfl, .refl events⟩

theorem ofExcept_gives {x : Except Fault α} {a : α} (h : x = .ok a) :
    (liftM x : Op σ α).Gives s a s := by
  subst h
  exact fun events => ⟨events, rfl, .refl events⟩

theorem ofExcept_meets {x : Except Fault α} {post : α → σ → Prop}
    (ha : ∀ a, x = .ok a → post a s) (hf : ∀ f, x = .error f → gap) :
    (liftM x : Op σ α).Meets gap s post := by
  cases x with
  | ok a => exact (ofExcept_gives rfl).meets (ha a rfl)
  | error f => exact fun events => ⟨hf f rfl, .refl events⟩

theorem zoom_meets (part : Focus σ τ) {x : Op τ α} {post : α → σ → Prop}
    (hx : x.Meets gap (part.split s).1 fun a t => post a ((part.split s).2 t)) :
    (zoom part x).Meets gap s post := by
  intro events
  have h := hx events
  revert h
  simp only [zoom]
  cases x ⟨(part.split s).1, events⟩ with
  | ok a t => exact id
  | error e t => exact id

theorem zoom_fault (part : Focus σ τ) {x : Op τ α} {t : τ} {f : Fault}
    {events later : Array Event} (h : x ⟨(part.split s).1, events⟩ = .error f ⟨t, later⟩) :
    zoom part x ⟨s, events⟩ = .error f ⟨(part.split s).2 t, later⟩ := by
  simp only [zoom, h]

theorem zoom_gives (part : Focus σ τ) {x : Op τ α} {a : α} {t : τ}
    (hx : x.Gives (part.split s).1 a t) : (zoom part x).Gives s a ((part.split s).2 t) :=
  (zoom_meets part (hx.meets ⟨rfl, rfl⟩)).gives

end Op

namespace Call

variable {ε ε' σ τ α β : Type} {gap : Prop} {s s' : σ}

def Meets (gap : Prop) (x : Call ε σ α) (s : σ) (answered : α → σ → Prop)
    (refused : ε → σ → Prop) : Prop :=
  Op.Meets gap x.run s fun r t =>
    match r with
    | .ok a => answered a t
    | .error e => refused e t

theorem Meets.mono {x : Call ε σ α} {answered answered' : α → σ → Prop}
    {refused refused' : ε → σ → Prop} (hx : x.Meets gap s answered refused)
    (ha : ∀ a t, answered a t → answered' a t) (hr : ∀ e t, refused e t → refused' e t) :
    x.Meets gap s answered' refused' := by
  refine Op.Meets.mono hx ?_
  intro r t h
  cases r with
  | ok a => exact ha a t h
  | error e => exact hr e t h

theorem Meets.widen {gap' : Prop} {x : Call ε σ α} {answered : α → σ → Prop}
    {refused : ε → σ → Prop} (hx : x.Meets gap s answered refused) (hg : gap → gap') :
    x.Meets gap' s answered refused :=
  Op.Meets.widen hx hg

theorem Meets.bind {x : Call ε σ α} {f : α → Call ε σ β} {m : α → σ → Prop}
    {answered : β → σ → Prop} {refused : ε → σ → Prop} (hx : x.Meets gap s m refused)
    (hf : ∀ a t, m a t → (f a).Meets gap t answered refused) :
    (x >>= f).Meets gap s answered refused := by
  refine Op.Meets.bind hx ?_
  intro r t h
  cases r with
  | ok a => exact hf a t h
  | error e => exact Op.pure_meets h

theorem pure_meets {a : α} {answered : α → σ → Prop} {refused : ε → σ → Prop}
    (h : answered a s) : (pure a : Call ε σ α).Meets gap s answered refused :=
  Op.pure_meets h

theorem throw_meets {e : ε} {answered : α → σ → Prop} {refused : ε → σ → Prop}
    (h : refused e s) : (throw e : Call ε σ α).Meets gap s answered refused :=
  Op.pure_meets h

theorem throw_bind_meets {e : ε} {f : α → Call ε σ β} {answered : β → σ → Prop}
    {refused : ε → σ → Prop} (h : refused e s) :
    ((throw e : Call ε σ α) >>= f).Meets gap s answered refused := by
  have ht : (throw e : Call ε σ α).Meets gap s (fun _ _ => False) refused := throw_meets h
  exact ht.bind fun _ _ hf => hf.elim

theorem lift_meets {x : Op σ α} {answered : α → σ → Prop} {refused : ε → σ → Prop}
    (hx : x.Meets gap s answered) : (liftM x : Call ε σ α).Meets gap s answered refused := by
  refine Op.Meets.bind hx ?_
  intro a t h
  exact Op.pure_meets h

theorem lift_bind_meets {x : Op σ α} {f : α → Call ε σ β} {mid : α → σ → Prop}
    {answered : β → σ → Prop} {refused : ε → σ → Prop} (hx : x.Meets gap s mid)
    (hf : ∀ a t, mid a t → (f a).Meets gap t answered refused) :
    ((liftM x : Call ε σ α) >>= f).Meets gap s answered refused :=
  (lift_meets hx).bind hf

theorem get_bind_meets {f : Traced σ → Call ε σ β} {answered : β → σ → Prop}
    {refused : ε → σ → Prop} (hf : ∀ events, (f ⟨s, events⟩).Meets gap s answered refused) :
    (get >>= f).Meets gap s answered refused :=
  fun events => hf events events

theorem record_meets {e : Event} (he : e.level ≠ .error) {answered : Unit → σ → Prop}
    {refused : ε → σ → Prop} (h : answered () s) :
    (record e : Call ε σ Unit).Meets gap s answered refused :=
  lift_meets ((Op.record_gives he).meets h)

theorem record_bind_meets {e : Event} (he : e.level ≠ .error) {f : Unit → Call ε σ β}
    {answered : β → σ → Prop} {refused : ε → σ → Prop}
    (hf : (f ()).Meets gap s answered refused) :
    ((record e : Call ε σ Unit) >>= f).Meets gap s answered refused := by
  have hr : (record e : Call ε σ Unit).Meets gap s (fun _ t => t = s) refused :=
    record_meets he rfl
  exact hr.bind fun _ _ ht => ht ▸ hf

theorem tryCatch_meets {x : Call ε σ α} {f : ε → Call ε σ α} {answered : α → σ → Prop}
    {m : ε → σ → Prop} {refused : ε → σ → Prop} (hx : x.Meets gap s answered m)
    (hf : ∀ e t, m e t → (f e).Meets gap t answered refused) :
    (tryCatch x f).Meets gap s answered refused := by
  refine Op.Meets.bind hx ?_
  intro r t h
  cases r with
  | ok a => exact Op.pure_meets h
  | error e => exact hf e t h

theorem adapt_meets {f : ε → ε'} {x : Call ε σ α} {answered : α → σ → Prop}
    {refused : ε' → σ → Prop} (hx : x.Meets gap s answered fun e t => refused (f e) t) :
    Meets gap (ExceptT.adapt f x) s answered refused := by
  refine Op.Meets.bind hx ?_
  intro r t h
  cases r with
  | ok a => exact Op.pure_meets h
  | error e => exact Op.pure_meets h

theorem report_meets {event : ε → Event} (he : ∀ e, (event e).level ≠ .error) {x : Call ε σ α}
    {answered : α → σ → Prop} {refused : ε → σ → Prop} (hx : x.Meets gap s answered refused) :
    (report event x).Meets gap s answered refused :=
  tryCatch_meets hx fun e _ h => record_bind_meets (he e) (throw_meets h)

theorem zoom_meets (part : Focus σ τ) {x : Call ε τ α} {answered : α → σ → Prop}
    {refused : ε → σ → Prop}
    (hx : x.Meets gap (part.split s).1 (fun a t => answered a ((part.split s).2 t))
      fun e t => refused e ((part.split s).2 t)) :
    (zoom part x).Meets gap s answered refused := by
  refine Op.zoom_meets part (Op.Meets.mono hx ?_)
  intro r t h
  cases r with
  | ok a => exact h
  | error e => exact h

def answer? (x : Call ε σ α) (s : σ) : Option (α × Traced σ) :=
  (Op.outcome? x.run s).bind fun (r, t) => r.toOption.map (·, t)

theorem run_of_answer? {x : Call ε σ α} {a : α} {t : Traced σ} (h : x.answer? s = some (a, t)) :
    x.run ⟨s, #[]⟩ = .ok (.ok a) t := by
  obtain ⟨⟨r, t'⟩, houtcome, hr⟩ := Option.bind_eq_some_iff.mp h
  cases r with
  | error e => cases hr
  | ok a' =>
    cases hr
    exact Op.run_of_outcome? houtcome

/-- Whether the call is answered, in a state that passes a test. -/
def answeredWith (x : Call ε σ α) (test : Traced σ → Bool) (t : Traced σ) : Bool :=
  match x.run t with
  | .ok (.ok _) u => test u
  | .ok (.error _) _ | .error _ _ => false

theorem exists_of_answeredWith {x : Call ε σ α} {test : Traced σ → Bool} {t : Traced σ}
    (h : x.answeredWith test t = true) : ∃ a u, x.run t = .ok (.ok a) u ∧ test u = true := by
  unfold answeredWith at h
  split at h
  · next a u hrun => exact ⟨a, u, hrun, h⟩
  · cases h
  · cases h

def isRefused (x : Call ε σ α) (t : Traced σ) : Bool :=
  match x.run t with
  | .ok (.error _) _ => true
  | .ok (.ok _) _ | .error _ _ => false

theorem exists_of_isRefused {x : Call ε σ α} {t : Traced σ} (h : x.isRefused t = true) :
    ∃ e u, x.run t = .ok (.error e) u := by
  unfold isRefused at h
  split at h
  · next e u hrun => exact ⟨e, u, hrun⟩
  · cases h
  · cases h

theorem zoomOp_meets (part : Focus σ τ) {x : Op τ α} {answered : α → σ → Prop}
    {refused : ε → σ → Prop}
    (hx : x.Meets gap (part.split s).1 fun a t => answered a ((part.split s).2 t)) :
    (zoomOp part x).Meets gap s answered refused :=
  lift_meets (Op.zoom_meets part hx)

end Call

namespace Op

variable {ε σ α β : Type} {gap : Prop} {s s' : σ}

theorem Gives.lift_bind {x : Op σ α} {f : α → Call ε σ β} {a : α} {answered : β → σ → Prop}
    {refused : ε → σ → Prop} (hx : x.Gives s a s')
    (hf : (f a).Meets gap s' answered refused) :
    ((liftM x : Call ε σ α) >>= f).Meets gap s answered refused := by
  refine Call.lift_bind_meets (hx.meets (p := fun b t => b = a ∧ t = s') ⟨rfl, rfl⟩) ?_
  rintro b t ⟨rfl, rfl⟩
  exact hf

theorem run_meets {x : Call ε σ α} {post : Except ε α → σ → Prop}
    (hx : x.Meets gap s (fun a t => post (.ok a) t) fun e t => post (.error e) t) :
    Op.Meets gap x.run s post := by
  refine Op.Meets.mono hx ?_
  intro r t h
  cases r with
  | ok a => exact h
  | error e => exact h

end Op
end PagedKernel
