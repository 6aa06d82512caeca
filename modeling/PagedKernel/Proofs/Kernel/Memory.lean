import PagedKernel.Proofs.Kernel.Steady

/-! The memory of a process: mapping, unmapping, the beginning and the end of its
space. The kernel stays steady, and the other processes are spared. -/

namespace PagedKernel

variable {m' : Machine} {v : Mmu} {u u' : AddressSpace} {pid : ProcessId}
  {users : ProcessId → Option AddressSpace} {slots : Slots} {es : List QueueEntry}
  {managed : Frame → Prop} {gap : Prop}

namespace Steady

theorem userStep (h : Steady managed gap v users slots es) (hu : users pid = some u)
    (hw : (Mmu.mk m' u').Sound) (ht : (Mmu.mk m' u').Trimmed)
    (hstep : Mmu.Step none ⟨v.machine, u⟩ ⟨m', u'⟩)
    (ho : ∀ p, ((Mmu.mk m' u').leaf p).isPresent = true →
      ((Mmu.mk m' u').leaf p).isBorrowed = false)
    (hbuffer : ∀ e ∈ es, e.pid = pid → ∀ loan, e.read.loan = some loan → ∀ i < loan.pages,
      ((Mmu.mk v.machine u).leaf (e.read.userBuffer.pageNumber + i)).isPresent = true →
        (Mmu.mk m' u').leaf (e.read.userBuffer.pageNumber + i) =
          (Mmu.mk v.machine u).leaf (e.read.userBuffer.pageNumber + i)) :
    Spared managed gap users v slots es pid m' (some u') := by
  have hturn : Turn v.machine m' (users pid) (some u') := by
    rw [hu]
    exact Turn.step hw ht hstep
  refine h.userTurn hturn (fun _ hs => Option.some.inj hs ▸ ho) ?_
  intro e he hpid t hts
  obtain rfl : u = t := Option.some.inj (hu.symm.trans hts)
  refine ⟨u', rfl, fun hl i hi => hbuffer e he hpid _ hl i hi ?_⟩
  obtain ⟨t, hts, hback⟩ := (h.sits e he).backed
  rw [hpid, hu] at hts
  cases hts
  exact (hback hl i hi).1

theorem userGrown {writable : Bool} {first n : Nat} (h : Steady managed gap v users slots es)
    (hu : users pid = some u)
    (hg : Mmu.Grown true (Mmu.FreshEntry writable true) ⟨v.machine, u⟩ ⟨m', u'⟩ first n) :
    Spared managed gap users v slots es pid m' (some u') := by
  have hsound := h.userSound hu
  have hoffered : ∀ p, first ≤ p → p < first + n →
      ((Mmu.mk v.machine u).leaf p).isPresent = false :=
    fun p hle hlt => hsound.offered (hg.before p hle hlt)
  refine h.userStep hu hg.sound (hg.trimmed (h.userTrimmed hu)) hg.step ?_ ?_
  · intro p hp
    by_cases hin : first ≤ p ∧ p < first + n
    · obtain ⟨⟨f, hf⟩, -⟩ := hg.mapped p hin.1 hin.2
      rw [hf]
      rfl
    · rw [hg.leaf p hin] at hp ⊢
      exact h.owned hu hp
  · intro e _ _ loan _ i _ hp
    apply hg.leaf
    rintro ⟨hle, hlt⟩
    rw [hoffered _ hle hlt] at hp
    cases hp

theorem userRestored (h : Steady managed gap v users slots es) (hu : users pid = some u)
    (hr : Mmu.Restored true ⟨v.machine, u⟩ ⟨m', u'⟩) :
    Spared managed gap users v slots es pid m' (some u') := by
  refine h.userStep hu hr.sound (hr.trimmed (h.userTrimmed hu)) hr.step ?_ ?_
  · rw [hr.leaf]
    exact fun _ => h.owned hu
  · intro e _ _ loan _ i _ _
    rw [hr.leaf]

theorem userUnassigned {first n : Nat} (h : Steady managed gap v users slots es)
    (hu : users pid = some u) (hw : Mmu.Unassigned ⟨v.machine, u⟩ ⟨m', u'⟩ first n)
    (hbuffer : ∀ e ∈ es, e.pid = pid → ∀ loan, e.read.loan = some loan → ∀ i < loan.pages,
      ¬ (first ≤ e.read.userBuffer.pageNumber + i ∧
        e.read.userBuffer.pageNumber + i < first + n)) :
    Spared managed gap users v slots es pid m' (some u') := by
  refine h.userStep hu hw.sound (hw.trimmed (h.userTrimmed hu)) hw.step ?_ ?_
  · intro p hp
    rw [hw.leaf] at hp ⊢
    split at hp
    · cases hp
    · next hout =>
      rw [if_neg hout]
      exact h.owned hu hp
  · intro e he hpid loan hl i hi _
    rw [hw.leaf, if_neg (hbuffer e he hpid loan hl i hi)]

theorem userCreated (h : Steady managed gap v users slots es) (hu : users pid = none)
    (hc : AddressSpace.Created v.machine m' u') :
    Spared managed gap users v slots es pid m' (some u') := by
  have hturn : Turn v.machine m' (users pid) (some u') := by
    rw [hu]
    exact Turn.create hc
  refine h.userTurn hturn ?_ ?_
  · intro s hs p hp
    obtain rfl := Option.some.inj hs
    rw [Mmu.leaf_of_no_tables hc.tables] at hp
    cases hp
  · intro e _ _ s hs
    rw [hu] at hs
    cases hs

theorem userReleased (h : Steady managed gap v users slots es) (hu : users pid = some u)
    (hf : Machine.Freed v.machine m' (Mmu.mk v.machine u).heldFrames)
    (hq : ∀ e ∈ es, e.pid ≠ pid) : Spared managed gap users v slots es pid m' none := by
  have hturn : Turn v.machine m' (users pid) none := by
    rw [hu]
    exact Turn.release hf
  exact h.userTurn hturn (fun _ hs => nomatch hs) fun e he hpid => absurd hpid (hq e he)

end Steady
end PagedKernel
