import PagedKernel.Proofs.Kernel.Steady
import PagedKernel.Proofs.Range.Identity

/-! Serving and making reads. A read that ends gives back its own loan, and those
of the other reads stay as they are; a read that is made borrows pages no other
read borrows. -/

namespace PagedKernel

variable {m m' m'' : Machine} {v w : Mmu} {u : AddressSpace} {pid : ProcessId}
  {users : ProcessId → Option AddressSpace} {slots : Slots} {es before after : List QueueEntry}
  {e : QueueEntry} {managed : Frame → Prop} {gap : Prop}

theorem Separate.symm {a b : QueueEntry} (h : Separate a b) : Separate b a :=
  ⟨h.1.symm, fun hl ho p hp hp' => h.2 ho hl p hp' hp⟩

theorem Untouched.refl (m : Machine) (u : AddressSpace) : Untouched m m u :=
  fun _ _ _ => rfl

theorem Untouched.trans (h : Untouched m m' u) (h' : Untouched m' m'' u) : Untouched m m'' u := by
  intro r f hf
  rw [h' r f (by rwa [h.view.2.2.2]), h r f hf]

/-- The kernel is steady, and since `m` no word of a process's frames has changed. -/
def Serving (managed : Frame → Prop) (gap : Prop) (users : ProcessId → Option AddressSpace)
    (m : Machine) (v : Mmu) (slots : Slots) (es : List QueueEntry) : Prop :=
  Steady managed gap v users slots es ∧
    ∀ pid u, users pid = some u → Untouched m v.machine u

def Returned (v : Mmu) : Option Loan → Mmu → Prop
  | none, w => w = v
  | some loan, w => Mmu.Unassigned v w loan.base.pageNumber loan.pages

theorem Returned.step (hv : v.Sound) (ht : v.Trimmed) {loan : Option Loan} (h : Returned v loan w) :
    w.Sound ∧ w.Trimmed ∧ Mmu.Step none v w ∧ ∀ p, w.leaf p = v.leaf p ∨
      w.leaf p = .zero ∧ ∃ l, loan = some l ∧ l.Covers p := by
  cases loan with
  | none =>
    cases h
    exact ⟨hv, ht, .refl v, fun _ => .inl rfl⟩
  | some loan =>
    have hu : Mmu.Unassigned v w loan.base.pageNumber loan.pages := h
    refine ⟨hu.sound, hu.trimmed ht, hu.step, fun p => ?_⟩
    rw [hu.leaf]
    split
    · next hp => exact .inr ⟨rfl, loan, rfl, hp⟩
    · exact .inl rfl

theorem Sits.live {source : Option AddressSpace} (hv : v.Sound) (h : Sits v users slots e)
    (δ : Type) (d : δ) :
    Read.Live False (Mmu.aliasMapper source) (Returned v e.read.loan) (e.read, ⟨d, v, slots⟩) where
  state := h.running
  slot := h.slot
  takes := by
    obtain ⟨u, -, hback⟩ := h.backed
    cases hl : e.read.loan with
    | none => exact rfl
    | some loan =>
      exact Mmu.takeBack_meets hv loan.base loan.span (h.fits hl).pages_ne_zero
        fun p hle hlt => (hback hl).present ⟨hle, hlt⟩

theorem served (source : Option AddressSpace) :
    ReadQueue.Served (Mmu.aliasMapper source) (fun r v => Returned v r.loan)
      (Serving managed gap users m) where
  ends := by
    rintro v slots before e after ⟨h, hm⟩
    have he := h.sits e (by simp)
    have hsep := (List.pairwise_middle Separate.symm).mp h.separate
    rw [List.pairwise_cons] at hsep
    refine ⟨he.live h.sound, ?_⟩
    intro w result hback
    obtain ⟨hw, ht, hstep, hleaf⟩ := hback.step h.sound h.trimmed
    have hb : ∀ {p}, (w.leaf p).isPresent = true → (w.leaf p).isBorrowed = true := by
      intro p hp
      rcases hleaf p with hp' | ⟨hz, -⟩
      · rw [hp'] at hp ⊢
        exact h.borrowed hp
      · rw [hz] at hp
        cases hp
    have hsits : (∀ pid u, users pid = some u → Untouched v.machine w.machine u) →
        ∀ e' ∈ before ++ after, Sits w users (slots.resolve e.read.slot result).2 e' := by
      intro huntouched e' he'
      have hother := hsep.1 e' he'
      have hmem : e' ∈ before ++ e :: after := by
        simp only [List.mem_append, List.mem_cons] at he' ⊢
        exact he'.imp_right .inr
      refine (h.sits e' hmem).move ?_ ?_ ?_
      · exact (Slots.open_resolve he.slot hother.1.symm result).mpr (h.sits e' hmem).slot
      · -- the pages of the other loans are not those that went back
        intro other ho p hp
        rcases hleaf p with hp' | ⟨-, loan, hl, hcov⟩
        · exact hp'
        · exact absurd hp (hother.2 hl ho p hcov)
      · intro u hu
        refine ⟨u, hu, fun _ i _ => ?_⟩
        rw [(huntouched e'.pid u hu).view.2.2.1]
    obtain ⟨hsteady, huntouched⟩ := h.kernelTurn hw ht hstep hb hsits hsep.2
    exact ⟨hsteady, fun pid u hu => (hm pid u hu).trans (huntouched pid u hu)⟩
  waits := by
    rintro v slots before e after state hstate ⟨h, hm⟩
    refine ⟨⟨h.custody, h.reach, h.borrowed, h.owned, ?_, ?_⟩, hm⟩
    · intro e' he'
      simp only [List.mem_append, List.mem_cons] at he'
      rcases he' with hb | rfl | ha
      · exact h.sits e' (by simp [hb])
      · have he := h.sits e (by simp)
        exact ⟨hstate, he.slot, he.unlent, fun hl => (he.fits hl).withState state, he.backed⟩
      · exact h.sits e' (by simp [ha])
    · have hsep := h.separate
      rw [List.pairwise_middle Separate.symm, List.pairwise_cons] at hsep ⊢
      exact hsep

namespace Steady

theorem kernelStep (h : Steady managed gap v users slots es) (hw : w.Sound) (ht : w.Trimmed)
    (hstep : Mmu.Step none v w)
    (hb : ∀ {p}, (w.leaf p).isPresent = true → (w.leaf p).isBorrowed = true)
    (hkept : ∀ {p}, (v.leaf p).isPresent = true → w.leaf p = v.leaf p) :
    Serving managed gap users v.machine w slots es := by
  refine h.kernelTurn hw ht hstep hb ?_ h.separate
  intro huntouched e he
  obtain ⟨u, hu, hback⟩ := (h.sits e he).backed
  refine (h.sits e he).move (h.sits e he).slot ?_ ?_
  · exact fun hl p hp => hkept ((hback hl).present hp)
  · intro u hu
    refine ⟨u, hu, fun _ i _ => ?_⟩
    rw [(huntouched e.pid u hu).view.2.2.1]

theorem restored (h : Steady managed gap v users slots es) (hr : Mmu.Restored false v w) :
    Serving managed gap users v.machine w slots es := by
  refine h.kernelStep hr.sound (hr.trimmed h.trimmed) hr.step ?_ ?_
  · rw [hr.leaf]
    exact h.borrowed
  · rw [hr.leaf]
    exact fun _ => rfl

theorem identified {inside : Nat → Prop} {writable : Bool}
    (h : Steady managed gap v users slots es) (hi : Mmu.Identified inside writable v w) :
    Serving managed gap users v.machine w slots es := by
  refine h.kernelStep hi.sound (hi.trimmed h.trimmed) hi.step ?_ hi.kept
  intro p hp
  rcases hi.page p with ⟨hleaf, -⟩ | ⟨-, -, -, f, -, hleaf⟩
  · rw [hleaf] at hp ⊢
    exact h.borrowed hp
  · rw [hleaf]
    rfl

theorem prepared (h : Steady managed gap v users slots es) (hu : users pid = some u) {r : Read}
    {fd : Fd} {buffer : VirtualAddress} (hp : r.Prepared ⟨v.machine, u⟩ v w)
    (hr : r.Starts fd buffer slots.cells.size) :
    Serving managed gap users v.machine w slots.handOut.2 (es ++ [⟨pid, r⟩]) := by
  obtain ⟨hw, ht, hstep, hleaf⟩ := hp.step h.sound h.trimmed
  have hkept : ∀ {p}, (v.leaf p).isPresent = true → w.leaf p = v.leaf p := by
    intro p hpresent
    rcases hleaf p with hsame | ⟨habsent, -⟩
    · exact hsame
    · rw [habsent] at hpresent
      cases hpresent
  have hb : ∀ {p}, (w.leaf p).isPresent = true → (w.leaf p).isBorrowed = true := by
    intro p hpresent
    rcases hleaf p with hsame | ⟨-, hnew⟩
    · rw [hsame] at hpresent ⊢
      exact h.borrowed hpresent
    · exact hnew
  obtain ⟨hsteady, huntouched⟩ := h.kernelStep hw ht hstep hb hkept
  have hview := (huntouched pid u hu).view.2.2.1
  refine ⟨⟨hsteady.custody, hsteady.reach, hsteady.borrowed, hsteady.owned, ?_, ?_⟩, huntouched⟩
  · intro e he
    rcases List.mem_append.mp he with hold | hnew
    · have hsits := hsteady.sits e hold
      exact ⟨hsits.running, Slots.open_of_handOut hsits.slot, hsits.unlent, hsits.fits,
        hsits.backed⟩
    · rw [List.mem_singleton.mp hnew]
      refine ⟨by rw [hr.state]; rfl, ?_, fun hl => (hp.unlent hl).1, fun hl => (hp.lent hl).1, u,
        hu, ?_⟩
      · dsimp only
        rw [hr.slot]
        exact Slots.open_handOut slots
      · intro loan hl i hi
        rw [hview]
        exact (hp.backed h.sound hl).2 i hi
  · refine List.pairwise_append.mpr ⟨h.separate, List.pairwise_singleton _ _, ?_⟩
    intro a ha b hb'
    rw [List.mem_singleton.mp hb']
    have hsits := h.sits a ha
    refine ⟨?_, ?_⟩
    · have hlt := (Array.getElem?_eq_some_iff.mp hsits.slot).1
      dsimp only
      rw [hr.slot]
      exact Nat.ne_of_lt hlt
    · -- the pages of a new loan were absent, those of the others present
      intro loan other hl ho p hcov hcov'
      obtain ⟨_, -, hback⟩ := hsits.backed
      have hpresent := (hback hl).present hcov
      rw [(hp.backed h.sound ho).1 p hcov'] at hpresent
      cases hpresent

end Steady
end PagedKernel
