import PagedKernel.Proofs.Host.Run

/-! What is done on a host, and what stays true of it. The frames that are available or
held by a space are divided among the pool and the spaces, and none of them is in hand. -/

namespace PagedKernel.SpaceHost

variable {h : SpaceHost} {managed : Frame → Prop} {f : Frame}

/-- Some available frame is not there to be touched. -/
def Short (h : SpaceHost) : Prop :=
  ∃ f, h.machine.pool.isAvailable f = true ∧ ¬ h.machine.ram.installed f

theorem installed_or_short (hf : h.machine.pool.isAvailable f = true) :
    h.machine.ram.installed f ∨ h.Short :=
  Classical.or_iff_not_imp_left.mpr fun hn => ⟨f, hf, hn⟩

structure Inv (managed : Frame → Prop) (h : SpaceHost) : Prop where
  custody : Custody managed h.machine h.space?
  hand : ∀ f ∈ h.hand, ¬ managed f
  guarded : ∀ {i s}, h.space? i = some s → (Mmu.mk h.machine s).Guarded

theorem Inv.managed_iff (hi : Inv managed h) :
    managed f ↔ h.machine.pool.isAvailable f = true ∨ ∃ r, h.Holds r f := by
  rw [hi.custody.managed]
  exact or_congr .rfl
    ⟨fun ⟨i, s, r, hs, hf⟩ => ⟨r, i, s, hs, hf⟩, fun ⟨r, i, s, hs, hf⟩ => ⟨i, s, r, hs, hf⟩⟩

theorem initial_inv (ram : Ram) : Inv (fun _ => False) (initial ram) where
  custody :=
    { pool := FramePool.empty_sound
      sound := nofun
      trimmed := nofun
      apart := nofun
      managed := fun f => by
        simp only [initial, FramePool.empty, FramePool.isAvailable, Bitmap.bit_filled, space?,
          List.getElem?_nil]
        simp }
  hand := nofun
  guarded := nofun

/-- Frames went between the pool and the hand, and memory is untouched. -/
structure Dealt (managed : Frame → Prop) (h h' : SpaceHost) : Prop where
  ram : h'.machine.ram = h.machine.ram
  spaces : h'.spaces = h.spaces
  pool : h'.machine.pool.Sound
  available : ∀ f, h'.machine.pool.isAvailable f = true →
    h.machine.pool.isAvailable f = true ∨ ¬ managed f
  hand : ∀ f ∈ h'.hand, h'.machine.pool.isAvailable f = false ∧
    (f ∈ h.hand ∨ h.machine.pool.isAvailable f = true)

inductive Outcome (managed : Frame → Prop) (h : SpaceHost) : Action → SpaceHost → Prop
  | created {s : AddressSpace} {m : Machine} (hc : AddressSpace.Created h.machine m s)
    (hs : s = .fresh s.directory) : Outcome managed h .create ⟨m, h.spaces ++ [s], h.hand⟩
  | missing {i : Nat} {c : SpaceCall} (hn : h.space? i = none) :
    Outcome managed h (.call i c) h
  | called {i : Nat} {c : SpaceCall} {s : AddressSpace} {w : Mmu} (hs : h.space? i = some s)
    (he : c.Effect ⟨h.machine, s⟩ w) : Outcome managed h (.call i c)
      ⟨w.machine, h.spaces.set i w.space, h.hand.filter (c.gain ≠ some ·)⟩
  | dealt {d : Deal} {h' : SpaceHost} (hd : Dealt managed h h') : Outcome managed h (.deal d) h'
  | written {f : Frame} {change : FrameWords → FrameWords} :
    Outcome managed h (.write f change)
      ⟨⟨h.machine.ram.change f change, h.machine.pool⟩, h.spaces, h.hand⟩

/-- Why an action is refused. -/
def Action.Refused (h : SpaceHost) (e : PagingError) : Action → Prop
  | create => e = .outOfFrames ∧ ∀ f, h.machine.pool.isAvailable f = false
  | call i c => ∃ s, h.space? i = some s ∧ c.Refused ⟨h.machine, s⟩ e
  | _ => False

section Perform

theorem create_meets (hi : Inv managed h) :
    create.Meets h.Short h (fun _ h' => Outcome managed h .create h')
      fun e h' => h' = h ∧ Action.create.Refused h e := by
  refine Call.Meets.bind (m := fun s h' => ∃ m, h' = ⟨m, h.spaces, h.hand⟩ ∧
    AddressSpace.Created h.machine m s ∧ s = .fresh s.directory)
    (Call.zoom_meets machinePart
      ((AddressSpace.create_meets hi.custody.pool fun _ => installed_or_short).mono ?_ ?_)) ?_
  · exact fun s m hc => ⟨m, rfl, hc⟩
  · rintro e m ⟨rfl, rfl, hnone⟩
    exact ⟨rfl, rfl, hnone⟩
  · rintro s _ ⟨m, rfl, hc, hs⟩
    exact Call.lift_meets ((Op.modify_gives _).meets (.created hc hs))

theorem call_meets (hi : Inv managed h) {i : Nat} {c : SpaceCall}
    (ha : (Action.call i c).Allowed h) :
    (call i c).Meets h.Short h (fun _ h' => Outcome managed h (.call i c) h')
      fun e h' => h' = h ∧ (Action.call i c).Refused h e := by
  unfold call
  refine (Op.read_gives (fun h : SpaceHost => h.space? i)).lift_bind ?_
  cases hs : h.space? i with
  | none => exact Call.pure_meets (.missing hs)
  | some s =>
    have hloose : ∀ f, c.gain = some f → ¬ (Mmu.mk h.machine s).Covers f := fun f hf hc =>
      hi.hand f (ha f hf) (hi.custody.covers_managed hs hc)
    refine Call.Meets.bind (m := fun _ h' => ∃ w, h' = ⟨w.machine, h.spaces.set i w.space, h.hand⟩ ∧
      c.Effect ⟨h.machine, s⟩ w) (Call.zoom_meets (spacePart i s)
        ((SpaceCall.perform_meets (hi.custody.sound hs) (fun _ => installed_or_short) c
          hloose).mono ?_ ?_)) ?_
    · exact fun _ w he => ⟨w, rfl, he⟩
    · rintro e w ⟨rfl, he⟩
      refine ⟨?_, s, hs, he⟩
      show SpaceHost.mk h.machine (h.spaces.set i s) h.hand = h
      obtain ⟨hlt, rfl⟩ := List.getElem?_eq_some_iff.mp hs
      rw [List.set_getElem_self]
    · rintro - _ ⟨w, rfl, he⟩
      exact Call.lift_meets ((Op.modify_gives _).meets (.called hs he))

theorem Inv.not_available (hi : Inv managed h) (hf : f ∈ h.hand) :
    h.machine.pool.isAvailable f = false :=
  Bool.eq_false_iff.mpr fun ha => hi.hand f hf (hi.managed_iff.mpr (.inl ha))

theorem take_meets (hi : Inv managed h) :
    Deal.take.perform.Meets h.Short h fun _ h' => Dealt managed h h' := by
  have hp := FramePool.alloc_sound hi.custody.pool
  refine (Op.zoom_gives machinePart (s := h) (Machine.takeFrame_gives h.machine)).bind ?_
  cases hf : h.machine.pool.alloc.1 with
  | none =>
    obtain ⟨hsame, -⟩ := FramePool.alloc_eq_none hf
    refine Op.pure_meets ⟨rfl, rfl, hp, fun g hg => .inl (hsame ▸ hg), fun g hg => ?_⟩
    exact ⟨(congrArg (·.isAvailable g) hsame).trans (hi.not_available hg), .inl hg⟩
  | some f =>
    obtain ⟨ha, hav, -⟩ := FramePool.alloc_eq_some hf
    refine (Op.modify_gives _).meets ⟨rfl, rfl, hp, fun g hg => .inl ((hav g).mp hg).1, ?_⟩
    intro g hg
    rcases List.mem_cons.mp hg with rfl | hg
    · exact ⟨Bool.eq_false_iff.mpr fun h' => ((hav g).mp h').2 rfl, .inr ha⟩
    · refine ⟨Bool.eq_false_iff.mpr fun h' => ?_, .inl hg⟩
      exact Bool.eq_false_iff.mp (hi.not_available hg) ((hav g).mp h').1

theorem give_meets (hi : Inv managed h) (hf : f ∈ h.hand) :
    (Deal.give f).perform.Meets h.Short h fun _ h' => Dealt managed h h' := by
  obtain ⟨-, hp, hav⟩ := FramePool.free_of_taken hi.custody.pool (hi.not_available hf)
  refine (Op.zoom_gives machinePart (s := h) (Machine.freeFrame_gives h.machine f)).bind
    ((Op.modify_gives _).meets ⟨rfl, rfl, hp, fun g hg => ?_, fun g hg => ?_⟩)
  · refine ((hav g).mp hg).imp_right ?_
    rintro rfl
    exact hi.hand g hf
  · obtain ⟨hg, hne⟩ := List.mem_filter.mp hg
    refine ⟨Bool.eq_false_iff.mpr fun h' => ?_, .inl hg⟩
    rcases (hav g).mp h' with ha | rfl
    · exact Bool.eq_false_iff.mp (hi.not_available hg) ha
    · simp at hne

theorem reserve_meets (hi : Inv managed h) (f : Frame) :
    (Deal.reserve f).perform.Meets h.Short h fun _ h' => Dealt managed h h' := by
  obtain ⟨-, hp, hav⟩ := FramePool.reserve_sound hi.custody.pool f
  have hgone : ∀ g, g ∈ h.hand → (h.machine.pool.reserve f).2.isAvailable g = false := fun g hg =>
    Bool.eq_false_iff.mpr fun h' => Bool.eq_false_iff.mp (hi.not_available hg) ((hav g).mp h').1
  refine (Op.read_gives fun h : SpaceHost => h.machine.pool.isAvailable f).bind ?_
  refine (Op.zoom_gives machinePart (s := h) (t := ⟨h.machine.ram, (h.machine.pool.reserve f).2⟩)
    (Op.update_gives _)).bind ?_
  split
  · next ha =>
    refine (Op.modify_gives _).meets ⟨rfl, rfl, hp, fun g hg => .inl ((hav g).mp hg).1, ?_⟩
    intro g hg
    rcases List.mem_cons.mp hg with rfl | hg
    · exact ⟨Bool.eq_false_iff.mpr fun h' => ((hav g).mp h').2 rfl, .inr ha⟩
    · exact ⟨hgone g hg, .inl hg⟩
  · exact Op.pure_meets ⟨rfl, rfl, hp, fun g hg => .inl ((hav g).mp hg).1,
      fun g hg => ⟨hgone g hg, .inl hg⟩⟩

theorem offer_meets (hi : Inv managed h) {first count : Nat}
    (ha : (Deal.offer first count).Allowed h) :
    (Deal.offer first count).perform.Meets h.Short h fun _ h' => Dealt managed h h' := by
  have hav := FramePool.isAvailable_releaseRange h.machine.pool first count
  have hp := FramePool.releaseRange_sound hi.custody.pool first count
  have hrun : (Machine.releaseRange first count).Gives h.machine ()
    ⟨h.machine.ram, h.machine.pool.releaseRange first count⟩ := Op.modify_gives _
  refine (Op.zoom_gives machinePart (s := h) hrun).meets
    ⟨rfl, rfl, hp, fun g hg => ?_, fun g hg => ⟨?_, .inl hg⟩⟩
  · rcases (hav g).mp hg with hg | ⟨hle, hlt⟩
    · exact .inl hg
    · by_cases hg : h.machine.pool.isAvailable g = true
      · exact .inl hg
      · refine .inr fun hm => ?_
        obtain ⟨r, hr⟩ := (hi.managed_iff.mp hm).resolve_left hg
        exact (ha g hle hlt).2 r hr
  · refine Bool.eq_false_iff.mpr fun h' => ?_
    rcases (hav g).mp h' with h' | ⟨hle, hlt⟩
    · exact Bool.eq_false_iff.mp (hi.not_available hg) h'
    · exact (ha g hle hlt).1 hg

theorem deal_meets (hi : Inv managed h) {d : Deal} (ha : d.Allowed h) :
    d.perform.Meets h.Short h fun _ h' => Dealt managed h h' := by
  cases d with
  | take => exact take_meets hi
  | give f => exact give_meets hi ha
  | reserve f => exact reserve_meets hi f
  | offer first count => exact offer_meets hi ha

theorem perform_meets (hi : Inv managed h) {a : Action} (ha : a.Allowed h) :
    a.perform.Meets h.Short h (fun _ h' => Outcome managed h a h')
      fun e h' => h' = h ∧ a.Refused h e := by
  cases a with
  | create => exact create_meets hi
  | call i c => exact call_meets hi ha
  | deal d => exact Call.lift_meets ((deal_meets hi ha).mono fun _ _ => .dealt)
  | write f change =>
    exact Call.zoomOp_meets machinePart
      ((Machine.changeFrame_gives (m := h.machine) ha.1 change).meets .written)

end Perform

section Keeps

theorem space?_append (h : SpaceHost) (s : AddressSpace) (m : Machine) (hand : List Frame) :
    (SpaceHost.mk m (h.spaces ++ [s]) hand).space? =
      Function.update h.space? h.spaces.length (some s) := by
  funext i
  rcases Nat.lt_trichotomy i h.spaces.length with hi | rfl | hi
  · rw [Function.update_of_ne (Nat.ne_of_lt hi)]
    exact List.getElem?_append_left hi
  · rw [Function.update_self]
    exact List.getElem?_concat_length
  · rw [Function.update_of_ne (Nat.ne_of_gt hi)]
    refine (List.getElem?_eq_none ?_).trans (List.getElem?_eq_none (Nat.le_of_lt hi)).symm
    rw [List.length_append]
    exact hi

theorem space?_set {i : Nat} {s : AddressSpace} (hs : h.space? i = some s) (t : AddressSpace)
    (m : Machine) (hand : List Frame) :
    (SpaceHost.mk m (h.spaces.set i t) hand).space? = Function.update h.space? i (some t) := by
  funext j
  obtain ⟨hlt, -⟩ := List.getElem?_eq_some_iff.mp hs
  by_cases hj : j = i
  · subst hj
    rw [Function.update_self]
    exact List.getElem?_set_self hlt
  · rw [Function.update_of_ne hj]
    exact List.getElem?_set_ne (Ne.symm hj)

theorem Inv.called (hi : Inv managed h) {i : Nat} {c : SpaceCall} {s : AddressSpace} {w : Mmu}
    (ha : (Action.call i c).Allowed h) (hs : h.space? i = some s)
    (he : c.Effect ⟨h.machine, s⟩ w) :
    ∃ managed', Custody managed' w.machine (Function.update h.space? i (some w.space)) ∧
      (∀ f ∈ h.hand, c.gain ≠ some f → ¬ managed' f) ∧
      ∀ {j t}, j ≠ i → h.space? j = some t → Untouched h.machine w.machine t := by
  have hv := hi.custody.sound hs
  have hw := he.sound hv
  have ht := he.trimmed (hi.custody.trimmed hs)
  have hstep := he.step
  cases hg : c.gain with
  | none =>
    rw [hg] at hstep
    have hturn : Turn h.machine w.machine (h.space? i) (some w.space) := by
      rw [hs]
      exact .step hw ht hstep
    exact ⟨managed, hi.custody.turn hturn, fun f hf _ => hi.hand f hf,
      fun hne ht => hi.custody.untouched hturn hne ht⟩
  | some f =>
    rw [hg] at hstep
    have hf := ha f hg
    obtain ⟨-, hp, hav⟩ := FramePool.free_of_taken hi.custody.pool (hi.not_available hf)
    have hgiven := hi.custody.withPool hp fun g hg => ((hav g).mp hg).imp_right fun he =>
      (show g = f from he) ▸ hi.hand f hf
    have hturn : Turn ⟨h.machine.ram, (h.machine.pool.free f).2⟩ w.machine (h.space? i)
        (some w.space) := by
      rw [hs]
      exact .gain hv (fun hc => hi.hand f hf (hi.custody.covers_managed hs hc)) hw ht hstep
    refine ⟨_, hgiven.turn hturn, fun g hg hne => ?_, fun hne ht => hgiven.untouched hturn hne ht⟩
    have hn := hi.hand g hg
    rw [hi.custody.managed, not_or] at hn
    rintro (ha | hheld)
    · rcases (hav g).mp ha with ha | rfl
      · exact hn.1 ha
      · exact hne rfl
    · exact hn.2 hheld

theorem guarded_of_no_tables {m : Machine} {s : AddressSpace}
    (hc : AddressSpace.Created h.machine m s) : (Mmu.mk m s).Guarded where
  links slot := ⟨true, hc.uniform true slot⟩
  user page hp := by
    rw [Mmu.leaf_of_no_tables hc.tables] at hp
    cases hp

theorem Outcome.view (hi : Inv managed h) {a : Action} {h' : SpaceHost} (ha : a.Allowed h)
    (ho : Outcome managed h a h') {i : Nat} {s : AddressSpace} (hs : h.space? i = some s)
    (hne : ∀ c, a ≠ .call i c) : h'.space? i = some s ∧
      (Mmu.mk h'.machine s).link = (Mmu.mk h.machine s).link ∧
      (Mmu.mk h'.machine s).leaf = (Mmu.mk h.machine s).leaf := by
  cases ho with
  | @created t m hc =>
    have hturn : Turn h.machine m (h.space? h.spaces.length) (some t) := by
      rw [space?, List.getElem?_eq_none (Nat.le_refl _)]
      exact .create hc
    have hlt : i < h.spaces.length := (List.getElem?_eq_some_iff.mp hs).1
    have hview := (hi.custody.untouched hturn (Nat.ne_of_lt hlt) hs).view
    rw [space?_append, Function.update_of_ne (Nat.ne_of_lt hlt)]
    exact ⟨hs, hview.1, hview.2.2.1⟩
  | missing => exact ⟨hs, rfl, rfl⟩
  | @called j c t w ht he =>
    have hij : i ≠ j := by
      rintro rfl
      exact hne c rfl
    obtain ⟨_, -, -, huntouched⟩ := hi.called ha ht he
    have hview := (huntouched hij hs).view
    rw [space?_set ht, Function.update_of_ne hij]
    exact ⟨hs, hview.1, hview.2.2.1⟩
  | dealt hd =>
    refine ⟨(congrArg (·[i]?) hd.spaces).trans hs, ?_⟩
    have hview := Mmu.view_congr (v := ⟨h.machine, s⟩) (w := ⟨h'.machine, s⟩) rfl
      (by rw [hd.ram]) fun _ _ _ => by rw [hd.ram]
    exact ⟨hview.1, hview.2.2.1⟩
  | @written f change =>
    obtain ⟨hinstalled, hd, ht⟩ := ha
    have hview := Mmu.view_withFrame (v := ⟨h.machine, s⟩) hinstalled
      (fun he => hd ⟨i, s, hs, congrArg some he.symm⟩)
      (fun slot hf => ht slot ⟨i, s, hs, hf⟩) change
    exact ⟨hs, hview.1, hview.2.2.1⟩

theorem Outcome.guarded (hi : Inv managed h) {a : Action} {h' : SpaceHost} (ha : a.Allowed h)
    (ho : Outcome managed h a h') {i : Nat} {s : AddressSpace} (hs : h'.space? i = some s) :
    (Mmu.mk h'.machine s).Guarded := by
  have hkept : h.space? i = some s → (∀ c, a ≠ .call i c) → (Mmu.mk h'.machine s).Guarded := by
    intro hs hne
    obtain ⟨-, hlink, hleaf⟩ := ho.view hi ha hs hne
    exact (hi.guarded hs).congr hlink hleaf
  cases ho with
  | @created t m hc =>
    rw [space?_append, Function.update_apply] at hs
    split at hs
    · cases hs
      exact guarded_of_no_tables hc
    · exact hkept hs nofun
  | missing => exact hi.guarded hs
  | @called j c t w ht he =>
    rw [space?_set ht, Function.update_apply] at hs
    split at hs
    · cases hs
      exact he.guarded (hi.guarded ht)
    · next hne =>
      refine hkept hs ?_
      rintro _ ⟨⟩
      exact hne rfl
  | dealt hd => exact hkept ((congrArg (·[i]?) hd.spaces).symm.trans hs) nofun
  | written => exact hkept hs nofun

theorem Dealt.keeps (hi : Inv managed h) {h' : SpaceHost} (hd : Dealt managed h h') :
    ∃ managed', Custody managed' h'.machine h'.space? ∧ ∀ f ∈ h'.hand, ¬ managed' f := by
  obtain ⟨⟨ram, pool⟩, spaces, hand⟩ := h'
  obtain ⟨rfl, rfl, hp, hav, hhand⟩ := hd
  refine ⟨_, hi.custody.withPool hp hav, fun f hf => ?_⟩
  obtain ⟨hn, hold⟩ := hhand f hf
  rintro (ha | ⟨i, s, r, hs, hr⟩)
  · exact Bool.eq_false_iff.mp hn ha
  · rcases hold with hold | ha
    · exact hi.hand f hold (hi.custody.covers_managed hs ((Mmu.covers_iff _ f).mpr (.inr ⟨r, hr⟩)))
    · exact (hi.custody.sound hs).not_available hr ha

theorem Outcome.keeps (hi : Inv managed h) {a : Action} {h' : SpaceHost} (ha : a.Allowed h)
    (ho : Outcome managed h a h') : ∃ managed', Inv managed' h' := by
  have hguarded := fun {i s} => @Outcome.guarded h managed hi a h' ha ho i s
  suffices hc : ∃ managed', Custody managed' h'.machine h'.space? ∧ ∀ f ∈ h'.hand, ¬ managed' f by
    obtain ⟨managed', hcustody, hhand⟩ := hc
    exact ⟨managed', hcustody, hhand, hguarded⟩
  cases ho with
  | @created t m hc =>
    have hturn : Turn h.machine m (h.space? h.spaces.length) (some t) := by
      rw [space?, List.getElem?_eq_none (Nat.le_refl _)]
      exact .create hc
    rw [space?_append]
    exact ⟨managed, hi.custody.turn hturn, hi.hand⟩
  | missing => exact ⟨managed, hi.custody, hi.hand⟩
  | @called j c t w ht he =>
    obtain ⟨managed', hcustody, hhand, -⟩ := hi.called ha ht he
    rw [space?_set ht]
    refine ⟨managed', hcustody, fun f hf => ?_⟩
    obtain ⟨hf, hne⟩ := List.mem_filter.mp hf
    exact hhand f hf (of_decide_eq_true hne)
  | dealt hd => exact hd.keeps hi
  | @written f change =>
    obtain ⟨hinstalled, hd, ht⟩ := ha
    refine ⟨managed, hi.custody.withFrame hinstalled (fun {i s} hs => ⟨?_, ?_⟩) change, hi.hand⟩
    · exact fun he => hd ⟨i, s, hs, congrArg some he.symm⟩
    · exact fun slot hf => ht slot ⟨i, s, hs, hf⟩

end Keeps

theorem Reachable.inv (hr : Reachable h) : ∃ managed, Inv managed h := by
  induction hr with
  | initial ram => exact ⟨_, initial_inv ram⟩
  | @step h events r t a ha hrun _ ih =>
    obtain ⟨managed, hi⟩ := ih
    have hpost := (Op.Meets.post (perform_meets hi ha) hrun).1
    cases r with
    | ok => exact Outcome.keeps hi ha hpost
    | error => exact hpost.1 ▸ ⟨managed, hi⟩

theorem Reachable.sound (hr : Reachable h) {i : Nat} {s : AddressSpace} (hs : h.space? i = some s) :
    (Mmu.mk h.machine s).Sound ∧ (Mmu.mk h.machine s).Trimmed := by
  obtain ⟨managed, hi⟩ := hr.inv
  exact ⟨hi.custody.sound hs, hi.custody.trimmed hs⟩

def twoPagesSpace : Option Mmu :=
  twoPages.bind fun h => (h.space? 0).map (Mmu.mk h.machine)

theorem twoPagesSpace_sound {v : Mmu} (hv : twoPagesSpace = some v) : v.Sound ∧ v.Trimmed := by
  obtain ⟨h, hh, hmap⟩ := Option.bind_eq_some_iff.mp hv
  obtain ⟨s, hs, rfl⟩ := Option.map_eq_some_iff.mp hmap
  exact (reachable_of_after (.initial _) hh).sound hs

def neighbours : Option (Mmu × AddressSpace) := do
  let h ← after (← twoPages) .create
  return (⟨h.machine, ← h.space? 1⟩, ← h.space? 0)

theorem neighbours_sound {v : Mmu} {s : AddressSpace} (h : neighbours = some (v, s)) :
    v.Sound ∧ v.Trimmed ∧ (Mmu.mk v.machine s).Sound ∧
      ∀ f, (Mmu.mk v.machine s).IsStructure f → ¬ v.IsStructure f := by
  obtain ⟨h₀, hh₀, h⟩ := Option.bind_eq_some_iff.mp h
  obtain ⟨h₁, hh₁, h⟩ := Option.bind_eq_some_iff.mp h
  obtain ⟨t, ht, h⟩ := Option.bind_eq_some_iff.mp h
  obtain ⟨s, hs, h⟩ := Option.bind_eq_some_iff.mp h
  cases h
  have hcreate : [Action.create].foldlM after h₀ = some h₁ := by
    rw [List.foldlM_cons, hh₁]
    rfl
  obtain ⟨managed, hi⟩ :=
    (reachable_of_after (reachable_of_after (.initial _) hh₀) hcreate).inv
  refine ⟨hi.custody.sound ht, hi.custody.trimmed ht, hi.custody.sound hs, fun f hf hf' => ?_⟩
  have hheld : ∀ {u : AddressSpace}, (Mmu.mk h₁.machine u).IsStructure f →
      ∃ r, (Mmu.mk h₁.machine u).held r = some f := by
    rintro u (rfl | ⟨slot, hslot⟩)
    · exact ⟨.directory, rfl⟩
    · exact ⟨.table slot, hslot⟩
  obtain ⟨r, hr⟩ := hheld hf
  obtain ⟨r', hr'⟩ := hheld hf'
  cases hi.custody.apart hs ht hr hr'

end PagedKernel.SpaceHost
