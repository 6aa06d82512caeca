import PagedKernel.Proofs.Operation

/-! Operations side by side. Two operations agree when, started in related states, they come to
the same answer or to the same fault and leave related states, whatever they report and whatever
was reported before. An operation that agrees with itself on equal states takes no notice of the
events, and its effect is the answer, or the fault, with the state that is left. -/

namespace PagedKernel

namespace Op

variable {σ σ' τ τ' α β : Type} {R : σ → σ' → Prop} {S : τ → τ' → Prop} {p : α → Prop}
  {q : β → Prop}

/-- Two operations have ended alike: with one answer, of which `p` holds, or with one fault. -/
inductive SameEnd (R : σ → σ' → Prop) (p : α → Prop) :
    EStateM.Result Fault (Traced σ) α → EStateM.Result Fault (Traced σ') α → Prop
  | answer {a : α} {t : Traced σ} {t' : Traced σ'} (ha : p a) (ht : R t.state t'.state) :
    SameEnd R p (.ok a t) (.ok a t')
  | fault {f : Fault} {t : Traced σ} {t' : Traced σ'} (ht : R t.state t'.state) :
    SameEnd R p (.error f t) (.error f t')

def Agrees (R : σ → σ' → Prop) (p : α → Prop) (x : Op σ α) (y : Op σ' α) : Prop :=
  ∀ s s' events events', R s s' → SameEnd R p (x ⟨s, events⟩) (y ⟨s', events'⟩)

namespace Agrees

variable {x : Op σ α} {y : Op σ' α}

theorem mono {p' : α → Prop} (h : Agrees R p x y) (hp : ∀ a, p a → p' a) :
    Agrees R p' x y := by
  intro s s' events events' hs
  have hend := h s s' events events' hs
  revert hend
  generalize x ⟨s, events⟩ = r, y ⟨s', events'⟩ = r'
  rintro (⟨ha, ht⟩ | ⟨ht⟩)
  · exact .answer (hp _ ha) ht
  · exact .fault ht

theorem bind {f : α → Op σ β} {g : α → Op σ' β} (h : Agrees R p x y)
    (hf : ∀ a, p a → Agrees R q (f a) (g a)) : Agrees R q (x >>= f) (y >>= g) := by
  intro s s' events events' hs
  have hend := h s s' events events' hs
  revert hend
  simp only [Bind.bind, EStateM.bind]
  generalize x ⟨s, events⟩ = r, y ⟨s', events'⟩ = r'
  rintro (⟨ha, ht⟩ | ⟨ht⟩)
  · exact hf _ ha _ _ _ _ ht
  · exact .fault ht

theorem congr {R' : σ → σ' → Prop} (h : Agrees R p x y) (hR : ∀ s s', R s s' ↔ R' s s') :
    Agrees R' p x y := by
  obtain rfl : R = R' := funext fun s => funext fun s' => propext (hR s s')
  exact h

theorem then_right {g : β → Op σ' α} {z : Op σ' β} {b : β}
    (hz : ∀ s s' events, R s s' → ∃ s'' later, z ⟨s', events⟩ = .ok b ⟨s'', later⟩ ∧ R s s'')
    (h : Agrees R p x (g b)) : Agrees R p x (z >>= g) := by
  intro s s' events events' hs
  obtain ⟨s'', later, hrun, hs'⟩ := hz s s' events' hs
  have hend := h s s'' events later hs'
  simp only [Bind.bind, EStateM.bind, hrun]
  exact hend

theorem zoom {part : Focus τ σ} {part' : Focus τ' σ'}
    (hpart : ∀ t t', S t t' → R (part.split t).1 (part'.split t').1 ∧
      ∀ s s', R s s' → S ((part.split t).2 s) ((part'.split t').2 s'))
    (h : Agrees R p x y) : Agrees S p (Op.zoom part x) (Op.zoom part' y) := by
  intro t t' events events' ht
  obtain ⟨hs, hback⟩ := hpart t t' ht
  have hend := h _ _ events events' hs
  revert hend
  simp only [Op.zoom]
  generalize x ⟨(part.split t).1, events⟩ = r, y ⟨(part'.split t').1, events'⟩ = r'
  rintro (⟨ha, hs'⟩ | ⟨hs'⟩)
  · exact .answer ha (hback _ _ hs')
  · exact .fault (hback _ _ hs')

end Agrees

theorem pure_agrees {a : α} (ha : p a) : Agrees R p (pure a : Op σ α) (pure a) :=
  fun _ _ _ _ hs => .answer ha hs

theorem fault_agrees (f : Fault) : Agrees R p (fault f : Op σ α) (fault f) :=
  fun _ _ _ _ hs => .fault hs

theorem record_agrees (e e' : Event) :
    Agrees R (fun _ => True) (record e : Op σ Unit) (record e') :=
  fun _ _ _ _ hs => .answer trivial hs

theorem read_agrees {f : σ → α} {g : σ' → α} (h : ∀ s s', R s s' → f s = g s' ∧ p (f s)) :
    Agrees R p (read f) (read g) := by
  intro s s' events events' hs
  obtain ⟨heq, hp⟩ := h s s' hs
  simp only [read, ← heq]
  exact .answer hp hs

theorem update_agrees {f : σ → α × σ} {g : σ' → α × σ'}
    (h : ∀ s s', R s s' → (f s).1 = (g s').1 ∧ p (f s).1 ∧ R (f s).2 (g s').2) :
    Agrees R p (update f) (update g) := by
  intro s s' events events' hs
  obtain ⟨heq, hp, hR⟩ := h s s' hs
  simp only [update, ← heq]
  exact .answer hp hR

theorem modify_agrees {f : σ → σ} {g : σ' → σ'} (h : ∀ s s', R s s' → R (f s) (g s')) :
    Agrees R (fun _ => True) (modify f) (modify g) :=
  fun s s' _ _ hs => .answer trivial (h s s' hs)

theorem ofExcept_agrees (x : Except Fault α) :
    Agrees R (fun _ => True) (liftM x : Op σ α) (liftM x : Op σ' α) := by
  intro s s' events events' hs
  cases x with
  | ok a => exact .answer trivial hs
  | error f => exact .fault hs

end Op

namespace Call

variable {ε ε' σ σ' τ τ' α β : Type} {R : σ → σ' → Prop} {S : τ → τ' → Prop} {p : α → Prop}
  {q : β → Prop}

/-- Two calls agree when the operations do; `p` holds of an answer that is no refusal. -/
def Agrees (R : σ → σ' → Prop) (p : α → Prop) (x : Call ε σ α) (y : Call ε σ' α) : Prop :=
  Op.Agrees R (fun r => ∀ a, r = .ok a → p a) x.run y.run

theorem pure_agrees {a : α} (ha : p a) :
    Agrees R p (pure a : Call ε σ α) (pure a : Call ε σ' α) :=
  Op.pure_agrees fun _ h => Except.ok.inj h ▸ ha

theorem throw_agrees (e : ε) :
    Agrees R p (throw e : Call ε σ α) (throw e : Call ε σ' α) :=
  Op.pure_agrees fun _ h => nomatch h

theorem lift_agrees {x : Op σ α} {y : Op σ' α} (h : Op.Agrees R p x y) :
    Agrees R p (liftM x : Call ε σ α) (liftM y : Call ε σ' α) :=
  h.bind fun _ ha => Op.pure_agrees fun _ heq => Except.ok.inj heq ▸ ha

theorem record_agrees (e e' : Event) :
    Agrees R (fun _ => True) (record e : Call ε σ Unit) (record e' : Call ε σ' Unit) :=
  lift_agrees (Op.record_agrees e e')

namespace Agrees

variable {x : Call ε σ α} {y : Call ε σ' α}

theorem bind {f : α → Call ε σ β} {g : α → Call ε σ' β} (h : Agrees R p x y)
    (hf : ∀ a, p a → Agrees R q (f a) (g a)) : Agrees R q (x >>= f) (y >>= g) := by
  refine Op.Agrees.bind h fun r hr => ?_
  cases r with
  | ok a => exact hf a (hr a rfl)
  | error e => exact throw_agrees e

theorem tryCatch {f : ε → Call ε σ α} {g : ε → Call ε σ' α} (h : Agrees R p x y)
    (hf : ∀ e, Agrees R p (f e) (g e)) :
    Agrees R p (MonadExcept.tryCatch x f) (MonadExcept.tryCatch y g) := by
  refine Op.Agrees.bind h fun r hr => ?_
  cases r with
  | ok a => exact Op.pure_agrees hr
  | error e => exact hf e

theorem report (event : ε → Event) (h : Agrees R p x y) :
    Agrees R p (Call.report event x) (Call.report event y) :=
  h.tryCatch fun e => (record_agrees _ _).bind fun _ _ => throw_agrees e

theorem adapt (f : ε → ε') (h : Agrees R p x y) :
    Agrees R p (ExceptT.adapt f x) (ExceptT.adapt f y) := by
  refine Op.Agrees.bind h fun r hr => ?_
  cases r with
  | ok a => exact pure_agrees (hr a rfl)
  | error e => exact throw_agrees (f e)

theorem zoom {part : Focus τ σ} {part' : Focus τ' σ'}
    (hpart : ∀ t t', S t t' → R (part.split t).1 (part'.split t').1 ∧
      ∀ s s', R s s' → S ((part.split t).2 s) ((part'.split t').2 s'))
    (h : Agrees R p x y) : Agrees S p (Call.zoom part x) (Call.zoom part' y) :=
  Op.Agrees.zoom hpart h

end Agrees

end Call

namespace Op

variable {σ τ α β : Type}

/-- An operation to which it is all the same what was reported before. -/
def Blind (x : Op σ α) : Prop :=
  Agrees Eq (fun _ => True) x x

namespace Blind

variable {x : Op σ α}

theorem bind {f : α → Op σ β} (h : Blind x) (hf : ∀ a, Blind (f a)) : Blind (x >>= f) :=
  Agrees.bind h fun a _ => hf a

theorem zoom (part : Focus τ σ) (h : Blind x) : Blind (Op.zoom part x) :=
  Agrees.zoom (fun _ _ ht => ht ▸ ⟨rfl, fun _ _ hs => hs ▸ rfl⟩) h

end Blind

theorem pure_blind (a : α) : Blind (pure a : Op σ α) :=
  pure_agrees trivial

theorem fault_blind (f : Fault) : Blind (fault f : Op σ α) :=
  fault_agrees f

theorem record_blind (e : Event) : Blind (record e : Op σ Unit) :=
  record_agrees e e

theorem read_blind (f : σ → α) : Blind (read f) :=
  read_agrees fun _ _ hs => hs ▸ ⟨rfl, trivial⟩

theorem inspect_blind (f : σ → Except Fault α) : Blind (inspect f) := by
  rintro s _ events events' rfl
  simp only [inspect]
  cases f s with
  | ok a => exact .answer trivial rfl
  | error e => exact .fault rfl

theorem update_blind (f : σ → α × σ) : Blind (update f) :=
  update_agrees fun _ _ hs => hs ▸ ⟨rfl, trivial, rfl⟩

theorem modify_blind (f : σ → σ) : Blind (modify f) :=
  modify_agrees fun _ _ hs => hs ▸ rfl

theorem ofExcept_blind (x : Except Fault α) : Blind (liftM x : Op σ α) :=
  ofExcept_agrees x

/-! What an operation comes to, its events apart. -/

def effect (x : Op σ α) (t : Traced σ) : Except Fault α × σ :=
  match x t with
  | .ok a u => (.ok a, u.state)
  | .error f u => (.error f, u.state)

theorem Blind.effect_eq {x : Op σ α} (h : x.Blind) (s : σ) (events events' : Array Event) :
    x.effect ⟨s, events⟩ = x.effect ⟨s, events'⟩ := by
  have hend := h s s events events' rfl
  revert hend
  unfold effect
  generalize x ⟨s, events⟩ = r, x ⟨s, events'⟩ = r'
  rintro (⟨-, ht⟩ | ⟨ht⟩)
  · exact congrArg (Prod.mk _) ht
  · exact congrArg (Prod.mk _) ht

theorem run_of_effect {x : Op σ α} {t : Traced σ} {a : α} (h : (x.effect t).1 = .ok a) :
    ∃ u, x t = .ok a u := by
  revert h
  unfold effect
  cases x t with
  | ok b u => exact fun h => ⟨u, by rw [Except.ok.inj h]⟩
  | error f u => exact nofun

theorem effect_bind {x : Op σ α} {f : α → Op σ β} {g : α → β}
    (hf : ∀ a t, (f a).effect t = (.ok (g a), t.state)) (t : Traced σ) :
    (x >>= f).effect t = ((x.effect t).1.map g, (x.effect t).2) := by
  unfold effect at hf ⊢
  simp only [Bind.bind, EStateM.bind]
  cases x t with
  | ok a u => exact hf a u
  | error e u => rfl

end Op

namespace Call

variable {ε ε' σ τ α β : Type}

theorem run_bind_ok {x : Call ε σ α} {f : α → Call ε σ β} {a : α} {t u : Traced σ}
    (h : x.run t = .ok (.ok a) u) : (x >>= f).run t = (f a).run u := by
  rw [ExceptT.run_bind]
  simp only [Bind.bind, EStateM.bind, h]

theorem run_bind_error {x : Call ε σ α} {f : α → Call ε σ β} {e : ε} {t u : Traced σ}
    (h : x.run t = .ok (.error e) u) : (x >>= f).run t = .ok (.error e) u := by
  rw [ExceptT.run_bind]
  simp only [Bind.bind, EStateM.bind, h]
  rfl

theorem run_bind_fault {x : Call ε σ α} {f : α → Call ε σ β} {e : Fault} {t u : Traced σ}
    (h : x.run t = .error e u) : (x >>= f).run t = .error e u := by
  rw [ExceptT.run_bind]
  simp only [Bind.bind, EStateM.bind, h]

theorem run_lift_fault {x : Op σ α} {e : Fault} {t u : Traced σ} (h : x t = .error e u) :
    (ExceptT.lift x : Call ε σ α).run t = .error e u := by
  rw [ExceptT.run_lift]
  simp only [Functor.map, EStateM.map, h]

theorem run_get_bind {f : Traced σ → Call ε σ β} (t : Traced σ) :
    (get >>= f).run t = (f t).run t :=
  rfl

theorem error_of_adapt {f : ε → ε'} {x : Call ε σ α} {t u : Traced σ} {cause : ε'}
    (h : (ExceptT.adapt f x).run t = .ok (.error cause) u) : ∃ e, cause = f e := by
  obtain ⟨answer, w, -, hanswer⟩ := Op.bind_eq_ok.mp h
  cases answer with
  | ok a => cases hanswer
  | error e =>
    cases hanswer
    exact ⟨e, rfl⟩

theorem effect_map {x : Call ε σ α} (g : α → β) (t : Traced σ) :
    (x >>= fun a => pure (g a)).run.effect t =
      ((x.run.effect t).1.map (Except.map g), (x.run.effect t).2) := by
  refine Op.effect_bind (fun r u => ?_) t
  cases r with
  | ok a => rfl
  | error e => rfl

theorem answer_of_effect_map {x : Call ε σ α} {g : α → β} {t : Traced σ} {b : β}
    (h : ((x >>= fun a => pure (g a)).run.effect t).1 = .ok (.ok b)) :
    ∃ a, (x.run.effect t).1 = .ok (.ok a) ∧ b = g a := by
  rw [effect_map] at h
  revert h
  cases (x.run.effect t).1 with
  | error f => exact nofun
  | ok r =>
    cases r with
    | error e => exact nofun
    | ok a => exact fun h => ⟨a, rfl, (Except.ok.inj (Except.ok.inj h)).symm⟩

def Blind (x : Call ε σ α) : Prop :=
  Agrees Eq (fun _ => True) x x

theorem blind_iff {x : Call ε σ α} : x.Blind ↔ x.run.Blind :=
  ⟨fun h => Op.Agrees.mono h fun _ _ => trivial, fun h => Op.Agrees.mono h fun _ _ _ _ => trivial⟩

namespace Blind

variable {x : Call ε σ α}

theorem bind {f : α → Call ε σ β} (h : x.Blind) (hf : ∀ a, (f a).Blind) : Blind (x >>= f) :=
  Agrees.bind h fun a _ => hf a

theorem tryCatch {f : ε → Call ε σ α} (h : x.Blind) (hf : ∀ e, (f e).Blind) :
    Blind (MonadExcept.tryCatch x f) :=
  Agrees.tryCatch h hf

theorem report (event : ε → Event) (h : x.Blind) : (Call.report event x).Blind :=
  Agrees.report event h

theorem adapt (f : ε → ε') (h : x.Blind) : Blind (ExceptT.adapt f x) :=
  Agrees.adapt f h

theorem zoom (part : Focus τ σ) (h : x.Blind) : (Call.zoom part x).Blind :=
  blind_iff.mpr ((blind_iff.mp h).zoom part)

end Blind

theorem pure_blind (a : α) : Blind (pure a : Call ε σ α) :=
  pure_agrees trivial

theorem throw_blind (e : ε) : Blind (throw e : Call ε σ α) :=
  throw_agrees e

theorem throw_bind_blind (e : ε) (f : α → Call ε σ β) :
    Blind ((throw e : Call ε σ α) >>= f) :=
  throw_blind e

theorem lift_blind {x : Op σ α} (h : x.Blind) : Blind (liftM x : Call ε σ α) :=
  lift_agrees h

theorem record_blind (e : Event) : Blind (record e : Call ε σ Unit) :=
  record_agrees e e

theorem zoomOp_blind (part : Focus τ σ) {x : Op σ α} (h : x.Blind) :
    Blind (zoomOp part x : Call ε τ α) :=
  lift_blind (h.zoom part)

theorem get_bind_blind {f : Traced σ → Call ε σ β} (h : ∀ t, (f t).Blind)
    (hf : ∀ s events events', f ⟨s, events⟩ = f ⟨s, events'⟩) : Blind (get >>= f) := by
  rintro s _ events events' rfl
  change Op.SameEnd Eq _ ((f ⟨s, events⟩).run ⟨s, events⟩) ((f ⟨s, events'⟩).run ⟨s, events'⟩)
  rw [hf s events' events]
  exact h ⟨s, events⟩ s s events events' rfl

end Call

end PagedKernel
