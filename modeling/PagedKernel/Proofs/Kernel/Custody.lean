import Mathlib.Logic.Function.Basic
import PagedKernel.Kernel.Error
import PagedKernel.Proofs.Space.Lifetime

/-! Many spaces on one machine. The frames managed by the pool are divided between
the pool and the spaces; when one space takes its turn, the others neither lose
nor gain a frame, and no word of theirs is written. -/

namespace PagedKernel

variable {m m' : Machine} {gap : Prop}

/-- A frame is available, or held by a space, if there is one. -/
def InHand (m : Machine) (space : Option AddressSpace) (f : Frame) : Prop :=
  m.pool.isAvailable f = true ∨ ∃ s r, space = some s ∧ (Mmu.mk m s).held r = some f

/-- No word of the frames that a space holds has changed. -/
def Untouched (m m' : Machine) (s : AddressSpace) : Prop :=
  ∀ r f, (Mmu.mk m s).held r = some f → m'.ram.words f = m.ram.words f

theorem Untouched.view {s : AddressSpace} (h : Untouched m m' s) :
    (Mmu.mk m' s).link = (Mmu.mk m s).link ∧ (Mmu.mk m' s).table? = (Mmu.mk m s).table? ∧
      (Mmu.mk m' s).leaf = (Mmu.mk m s).leaf ∧ (Mmu.mk m' s).held = (Mmu.mk m s).held :=
  Mmu.view_congr (v := ⟨m, s⟩) (w := ⟨m', s⟩) rfl (h .directory _ rfl)
    fun slot _ ht => h (.table slot) _ ht

/-- A space does not come to an end or begin, or it does; what it held and what is
available are the same frames before and after, but for those dealt with between
the two. -/
structure Turn (m m' : Machine) (before after : Option AddressSpace) : Prop where
  installed : ∀ f, m'.ram.installed f ↔ m.ram.installed f
  pool : m'.pool.Sound
  inHand : ∀ f, InHand m' after f ↔ InHand m before f
  kept : ∀ f, ¬ InHand m before f → m'.ram.words f = m.ram.words f
  sound : ∀ s, after = some s → (Mmu.mk m' s).Sound ∧ (Mmu.mk m' s).Trimmed

namespace Turn

variable {s s' : AddressSpace}

theorem inHand_some (m : Machine) (s : AddressSpace) (f : Frame) :
    InHand m (some s) f ↔ (Mmu.mk m s).Covers f := by
  rw [Mmu.covers_iff, InHand]
  refine or_congr .rfl ?_
  constructor
  · rintro ⟨t, r, ht, hf⟩
    exact ⟨r, Option.some.inj ht ▸ hf⟩
  · rintro ⟨r, hf⟩
    exact ⟨s, r, rfl, hf⟩

theorem inHand_none (m : Machine) (f : Frame) :
    InHand m none f ↔ m.pool.isAvailable f = true := by
  simp [InHand]

theorem step (hv : (Mmu.mk m' s').Sound) (ht : (Mmu.mk m' s').Trimmed)
    (h : Mmu.Step none ⟨m, s⟩ ⟨m', s'⟩) : Turn m m' (some s) (some s') where
  installed := h.installed
  pool := hv.pool
  inHand f := by
    rw [inHand_some, inHand_some, h.covers]
    simp
  kept f hf := h.kept f (mt (inHand_some m s f).mpr hf)
  sound t ht' := Option.some.inj ht' ▸ ⟨hv, ht⟩

theorem gain {f : Frame} (hs : (Mmu.mk m s).Sound) (hf : ¬ (Mmu.mk m s).Covers f)
    (hv : (Mmu.mk m' s').Sound) (ht : (Mmu.mk m' s').Trimmed)
    (h : Mmu.Step (some f) ⟨m, s⟩ ⟨m', s'⟩) :
    Turn ⟨m.ram, (m.pool.free f).2⟩ m' (some s) (some s') := by
  have hgiven := (hs.give hf).2.2
  refine ⟨h.installed, hv.pool, fun g => ?_, fun g hg => h.kept g fun hc => hg ?_, ?_⟩
  · rw [inHand_some, inHand_some, h.covers, Option.some.injEq, eq_comm (a := f)]
    exact (hgiven g).symm
  · exact (inHand_some _ s g).mpr ((hgiven g).mpr (.inl hc))
  · exact fun t ht' => Option.some.inj ht' ▸ ⟨hv, ht⟩

theorem create (h : AddressSpace.Created m m' s) : Turn m m' none (some s) where
  installed := h.installed
  pool := h.sound.pool
  inHand f := by
    rw [inHand_some, inHand_none, Mmu.covers_iff]
    simp only [Mmu.held_of_no_tables h.tables, Mmu.available, h.available]
    by_cases hf : f = s.directory
    · subst hf
      simp [h.taken]
    · simp [hf, Ne.symm hf]
  kept f hf := by
    refine h.kept f ?_
    rintro rfl
    exact hf (.inl h.taken)
  sound t ht := by
    cases ht
    refine ⟨h.sound, ?_⟩
    intro slot f hf
    rw [h.tables] at hf
    cases hf

theorem release (h : Machine.Freed m m' (Mmu.mk m s).heldFrames) :
    Turn m m' (some s) none where
  installed f := by rw [h.ram]
  pool := h.pool
  inHand f := by
    rw [inHand_some, inHand_none, Mmu.covers_iff, h.available, Mmu.mem_heldFrames]
    rfl
  kept f _ := by rw [h.ram]
  sound t ht := nomatch ht

end Turn

variable {ι : Type} {managed : Frame → Prop} {spaces : ι → Option AddressSpace}
  {o : ι} {after : Option AddressSpace}

/-- The managed frames are divided between the pool and the spaces. -/
structure Custody (managed : Frame → Prop) (m : Machine) (spaces : ι → Option AddressSpace) :
    Prop where
  pool : m.pool.Sound
  sound : ∀ {o s}, spaces o = some s → (Mmu.mk m s).Sound
  trimmed : ∀ {o s}, spaces o = some s → (Mmu.mk m s).Trimmed
  apart : ∀ {o o' s s' r r' f}, spaces o = some s → spaces o' = some s' →
    (Mmu.mk m s).held r = some f → (Mmu.mk m s').held r' = some f → o = o'
  managed : ∀ f, managed f ↔
    m.pool.isAvailable f = true ∨ ∃ o s r, spaces o = some s ∧ (Mmu.mk m s).held r = some f

namespace Custody

theorem not_inHand (h : Custody managed m spaces) {o' : ι} {s : AddressSpace} {r : Mmu.Role}
    {f : Frame} (hne : o' ≠ o) (hs : spaces o' = some s) (hf : (Mmu.mk m s).held r = some f) :
    ¬ InHand m (spaces o) f := by
  rintro (ha | ⟨t, q, ht, hq⟩)
  · exact (h.sound hs).not_available hf ha
  · exact hne (h.apart hs ht hf hq)

theorem untouched (h : Custody managed m spaces) (ht : Turn m m' (spaces o) after) {q : ι}
    {s : AddressSpace} (hne : q ≠ o) (hs : spaces q = some s) : Untouched m m' s :=
  fun _ f hf => ht.kept f (h.not_inHand hne hs hf)

theorem inHand_or (m : Machine) (spaces : ι → Option AddressSpace) (o : ι) (f : Frame) :
    (m.pool.isAvailable f = true ∨ ∃ o s r, spaces o = some s ∧ (Mmu.mk m s).held r = some f) ↔
      InHand m (spaces o) f ∨
        ∃ o' s r, o' ≠ o ∧ spaces o' = some s ∧ (Mmu.mk m s).held r = some f := by
  constructor
  · rintro (ha | ⟨o', s, r, hs, hf⟩)
    · exact .inl (.inl ha)
    · by_cases he : o' = o
      · exact .inl (.inr ⟨s, r, he ▸ hs, hf⟩)
      · exact .inr ⟨o', s, r, he, hs, hf⟩
  · rintro ((ha | ⟨s, r, hs, hf⟩) | ⟨o', s, r, -, hs, hf⟩)
    · exact .inl ha
    · exact .inr ⟨o, s, r, hs, hf⟩
    · exact .inr ⟨o', s, r, hs, hf⟩

theorem held_of_other (h : Custody managed m spaces) (ht : Turn m m' (spaces o) after) {q : ι}
    {s : AddressSpace} (hne : q ≠ o) (hs : spaces q = some s) :
    (Mmu.mk m' s).held = (Mmu.mk m s).held :=
  (h.untouched ht hne hs).view.2.2.2

theorem not_inHand_after (h : Custody managed m spaces) (ht : Turn m m' (spaces o) after) {q : ι}
    {s : AddressSpace} {r : Mmu.Role} {f : Frame} (hne : q ≠ o) (hs : spaces q = some s)
    (hf : (Mmu.mk m' s).held r = some f) : ¬ InHand m' after f := by
  rw [h.held_of_other ht hne hs] at hf
  rw [ht.inHand]
  exact h.not_inHand hne hs hf

theorem sound_of_other (h : Custody managed m spaces) (ht : Turn m m' (spaces o) after) {q : ι}
    {s : AddressSpace} (hne : q ≠ o) (hs : spaces q = some s) : (Mmu.mk m' s).Sound := by
  have hv := (h.untouched ht hne hs).view
  have hsame : (Mmu.mk ⟨m'.ram, m.pool⟩ s).Sound :=
    (h.sound hs).congr rfl rfl ht.installed hv.2
  refine hsame.withPool ht.pool fun f hf => ?_
  -- a frame available now was so before, or came from the space whose turn it was
  by_cases ha : m.pool.isAvailable f = true
  · exact .inl ha
  · refine .inr fun hc => ?_
    rcases (Mmu.covers_iff _ f).mp hc with ha' | ⟨r, hr⟩
    · exact ha ha'
    · exact h.not_inHand_after ht hne hs hr (.inl hf)

theorem trimmed_of_other (h : Custody managed m spaces) (ht : Turn m m' (spaces o) after) {q : ι}
    {s : AddressSpace} (hne : q ≠ o) (hs : spaces q = some s) : (Mmu.mk m' s).Trimmed := by
  obtain ⟨-, htable, hleaf, -⟩ := (h.untouched ht hne hs).view
  intro slot f hf
  simp only [Mmu.presentBelow, hleaf]
  exact h.trimmed hs slot f (htable ▸ hf)

theorem turn [DecidableEq ι] (h : Custody managed m spaces) (ht : Turn m m' (spaces o) after) :
    Custody managed m' (Function.update spaces o after) := by
  have hcases : ∀ {o' s}, Function.update spaces o after o' = some s →
      (o' = o ∧ after = some s) ∨ (o' ≠ o ∧ spaces o' = some s) := by
    intro o' s hs
    by_cases he : o' = o
    · subst he
      rw [Function.update_self] at hs
      exact .inl ⟨rfl, hs⟩
    · rw [Function.update_of_ne he] at hs
      exact .inr ⟨he, hs⟩
  refine ⟨ht.pool, ?_, ?_, ?_, ?_⟩
  · intro o' s hs
    rcases hcases hs with ⟨-, hs⟩ | ⟨hne, hs⟩
    · exact (ht.sound s hs).1
    · exact h.sound_of_other ht hne hs
  · intro o' s hs
    rcases hcases hs with ⟨-, hs⟩ | ⟨hne, hs⟩
    · exact (ht.sound s hs).2
    · exact h.trimmed_of_other ht hne hs
  · intro o₁ o₂ s₁ s₂ r₁ r₂ f hs₁ hs₂ hf₁ hf₂
    rcases hcases hs₁ with ⟨he₁, ha₁⟩ | ⟨hne₁, hs₁⟩ <;>
      rcases hcases hs₂ with ⟨he₂, ha₂⟩ | ⟨hne₂, hs₂⟩
    · rw [he₁, he₂]
    · exact absurd (.inr ⟨s₁, r₁, ha₁, hf₁⟩) (h.not_inHand_after ht hne₂ hs₂ hf₂)
    · exact absurd (.inr ⟨s₂, r₂, ha₂, hf₂⟩) (h.not_inHand_after ht hne₁ hs₁ hf₁)
    · rw [h.held_of_other ht hne₁ hs₁] at hf₁
      rw [h.held_of_other ht hne₂ hs₂] at hf₂
      exact h.apart hs₁ hs₂ hf₁ hf₂
  · intro f
    rw [h.managed, inHand_or m spaces o, inHand_or m' (Function.update spaces o after) o,
      Function.update_self, ht.inHand]
    refine or_congr .rfl ?_
    constructor
    · rintro ⟨o', s, r, hne, hs, hf⟩
      exact ⟨o', s, r, hne, by rwa [Function.update_of_ne hne],
        by rwa [h.held_of_other ht hne hs]⟩
    · rintro ⟨o', s, r, hne, hs, hf⟩
      rw [Function.update_of_ne hne] at hs
      exact ⟨o', s, r, hne, hs, by rwa [h.held_of_other ht hne hs] at hf⟩

theorem covers_managed (h : Custody managed m spaces) {s : AddressSpace} {f : Frame}
    (hs : spaces o = some s) (hf : (Mmu.mk m s).Covers f) : managed f := by
  rw [h.managed]
  rcases (Mmu.covers_iff _ f).mp hf with ha | ⟨r, hr⟩
  · exact .inl ha
  · exact .inr ⟨o, s, r, hs, hr⟩

theorem withPool (h : Custody managed m spaces) {pool : FramePool} (hp : pool.Sound)
    (ha : ∀ f, pool.isAvailable f = true → m.pool.isAvailable f = true ∨ ¬ managed f) :
    Custody (fun f => pool.isAvailable f = true ∨
      ∃ o s r, spaces o = some s ∧ (Mmu.mk m s).held r = some f) ⟨m.ram, pool⟩ spaces where
  pool := hp
  sound hs := (h.sound hs).withPool hp fun f hf =>
    (ha f hf).imp_right fun hn hc => hn (h.covers_managed hs hc)
  trimmed := h.trimmed
  apart := h.apart
  managed _ := .rfl

theorem withFrame (h : Custody managed m spaces) {f : Frame} (hi : m.ram.installed f)
    (hf : ∀ {o s}, spaces o = some s →
      f ≠ s.directory ∧ ∀ slot, (Mmu.mk m s).table? slot ≠ some f)
    (change : FrameWords → FrameWords) :
    Custody managed ⟨m.ram.change f change, m.pool⟩ spaces := by
  have hview := fun {o s} (hs : spaces o = some s) =>
    Mmu.view_withFrame (v := ⟨m, s⟩) hi (hf hs).1 (hf hs).2 change
  have hheld : ∀ {o s}, spaces o = some s →
      (Mmu.mk ⟨m.ram.change f change, m.pool⟩ s).held = (Mmu.mk m s).held :=
    fun hs => (hview hs).2.2.2
  refine ⟨h.pool, fun hs => (h.sound hs).withFrame hi (hf hs).1 (hf hs).2 change, ?_, ?_, ?_⟩
  · intro o s hs slot g hg
    obtain ⟨-, htable, hleaf, -⟩ := hview hs
    have hsame : (Mmu.mk ⟨m.ram.change f change, m.pool⟩ s).presentBelow slot =
        (Mmu.mk m s).presentBelow slot := Mmu.presentBelow_congr fun i _ =>
      congrArg TableEntry.isPresent (congrFun hleaf (1024 * slot + i))
    rw [hsame]
    exact h.trimmed hs slot g ((congrFun htable slot).symm.trans hg)
  · intro o o' s s' r r' g hs hs' hg hg'
    rw [hheld hs] at hg
    rw [hheld hs'] at hg'
    exact h.apart hs hs' hg hg'
  · intro g
    rw [h.managed]
    refine or_congr .rfl ?_
    constructor
    · rintro ⟨o, s, r, hs, hg⟩
      exact ⟨o, s, r, hs, hheld hs ▸ hg⟩
    · rintro ⟨o, s, r, hs, hg⟩
      exact ⟨o, s, r, hs, hheld hs ▸ hg⟩

end Custody
end PagedKernel
