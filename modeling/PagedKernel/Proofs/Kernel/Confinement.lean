import PagedKernel.Proofs.Kernel.UserSpaces

/-! Processes stay above the kernel window. Its pages are kept from being handed out when a
process is created. Unmapping offers a whole range again, but only pages that are mapped, and
a page that is never offered is never mapped. -/

namespace PagedKernel

open MemoryLayout (kernelWindowPages userBase userBaseAddress)

namespace Mmu

variable {m m' : Machine} {v w : Mmu} {first n : Nat} {writable : Bool} {p : Process}

/-- Nothing in the kernel window is on offer or mapped, and user code may use what is
mapped. -/
structure Confined (v : Mmu) : Prop where
  withheld : ∀ p < kernelWindowPages, v.space.isAvailable p = false
  absent : ∀ p < kernelWindowPages, (v.leaf p).isPresent = false
  user : ∀ p, (v.leaf p).isPresent = true → (v.leaf p).isUser = true

namespace Confined

theorem congr (h : Confined v) (ho : w.space.isAvailable = v.space.isAvailable)
    (hl : w.leaf = v.leaf) : Confined w where
  withheld := by
    rw [ho]
    exact h.withheld
  absent := by
    rw [hl]
    exact h.absent
  user := by
    rw [hl]
    exact h.user

theorem created (h : AddressSpace.Created m m' p.space)
    (hp : p = .first p.pid p.space.directory) : Confined ⟨m', p.space⟩ := by
  have hleaf : ∀ page, (Mmu.mk m' p.space).leaf page = .zero := leaf_of_no_tables h.tables
  refine ⟨fun page hlt => ?_, fun page _ => ?_, fun page hpresent => ?_⟩
  · have hcount : page < pageCount := Nat.lt_trans hlt (by decide)
    rw [AddressSpace.isAvailable_of_lt _ hcount, hp]
    exact (Process.bit_firstPages hcount).trans (decide_eq_false (Nat.not_le.mpr hlt))
  · rw [hleaf]
    rfl
  · rw [hleaf] at hpresent
    cases hpresent

theorem grown (h : Confined v) (hw : Grown true (FreshEntry writable true) v w first n) :
    Confined w where
  withheld p hlt := by
    rw [hw.offered]
    split
    · rfl
    · exact h.withheld p hlt
  absent p hlt := by
    rw [hw.leaf p, h.absent p hlt]
    rintro ⟨hle, hend⟩
    have hoffer := hw.before p hle hend
    rw [h.withheld p hlt] at hoffer
    cases hoffer
  user p hp := by
    by_cases hin : first ≤ p ∧ p < first + n
    · obtain ⟨⟨f, hnew⟩, -⟩ := hw.mapped p hin.1 hin.2
      rw [hnew]
      rfl
    · rw [hw.leaf p hin] at hp ⊢
      exact h.user p hp

theorem unassigned (h : Confined v) (hw : Unassigned v w first n) : Confined w where
  withheld p hlt := by
    rw [hw.offered, if_neg, h.withheld p hlt]
    rintro ⟨hle, hend⟩
    have hpresent := hw.present p hle hend
    rw [h.absent p hlt] at hpresent
    cases hpresent
  absent p hlt := by
    rw [hw.leaf]
    split
    · rfl
    · exact h.absent p hlt
  user p hp := by
    rw [hw.leaf] at hp ⊢
    split at hp
    · cases hp
    · next hout =>
      rw [if_neg hout]
      exact h.user p hp

end Confined

theorem confined_spaceProperty : SpaceProperty Confined where
  untouched hm h := h.congr rfl hm.view.2.2.1
  created := .created
  mapped hw h := h.grown hw.grown
  restored hw h := h.congr hw.offered hw.leaf
  unassigned hw h := h.unassigned hw

end Mmu

namespace MemoryLayout

theorem kernelWindowPages_le_max (hint : VirtualAddress) :
    kernelWindowPages ≤ (hint.max userBaseAddress).pageNumber := by
  unfold VirtualAddress.max
  split
  · decide
  · next h =>
    have hbits : 268435456 < hint.bits.toNat := UInt32.lt_iff_toNat_lt.mp (UInt32.not_le.mp h)
    have hpage : hint.pageNumber = hint.bits.toNat / 4096 := rfl
    rw [hpage, kernelWindowPages]
    omega

end MemoryLayout

namespace AddressSpace

/-- The space of a process as lookups show it: the kernel window is neither on offer nor
mapped, and all that is mapped belongs to the process and is open to user code. -/
structure Secluded (s : AddressSpace) (ram : Ram) : Prop where
  answers : ∀ page : Page, ∃ e, s.entry ram page.base = .ok e
  withheld : ∀ page < kernelWindowPages, s.isAvailable page = false
  absent : ∀ page : Page, page.index.val < kernelWindowPages →
    ∀ e, s.entry ram page.base = .ok e → e.isPresent = false
  own : ∀ page : Page, ∀ e, s.entry ram page.base = .ok e → e.isPresent = true →
    e.isUser = true ∧ e.isBorrowed = false

/-- A range of whole pages for `length` bytes, above the kernel window, inside the address
space, and mapped nowhere. -/
structure Vacant (s : AddressSpace) (ram : Ram) (base : VirtualAddress) (length : Nat) : Prop where
  aligned : base.offset = 0
  above : userBase ≤ base.toNat
  covers : length ≤ pagesSpanning length * pageSize
  inside : base.toNat + pagesSpanning length * pageSize ≤ pageCount * pageSize
  unmapped : ∀ va : VirtualAddress, base.toNat ≤ va.toNat →
    va.toNat < base.toNat + pagesSpanning length * pageSize → s.translate ram va = .ok none

end AddressSpace

theorem Mmu.Confined.secluded {v : Mmu} (hv : v.Sound) (h : v.Confined)
    (ho : ∀ p, (v.leaf p).isPresent = true → (v.leaf p).isBorrowed = false) :
    v.space.Secluded v.machine.ram := by
  have hentry : ∀ page : Page, v.space.entry v.machine.ram page.base = .ok (v.leaf page.index.val) :=
    fun page => by rw [Mmu.entry_eq hv, Page.base_pageNumber]
  refine ⟨fun page => ⟨_, hentry page⟩, h.withheld, fun page hlt e he => ?_, fun page e he hp => ?_⟩
  · rw [hentry] at he
    cases he
    exact h.absent _ hlt
  · rw [hentry] at he
    cases he
    exact ⟨h.user _ hp, ho _ hp⟩

theorem Mmu.Mapped.vacant {v w : Mmu} {writable : Bool} {hint base : VirtualAddress}
    {length : Nat} (hv : v.Sound)
    (hw : Mapped writable true v w (hint.max userBaseAddress) base length) :
    v.space.Vacant v.machine.ram base length := by
  have haddress := base.pageIndex_mul_add_offset
  have hnumber : base.pageIndex = base.pageNumber := rfl
  have hoffset : base.pageOffset = 0 := hw.aligned
  rw [hnumber, hoffset] at haddress
  have hstart := Nat.le_trans (MemoryLayout.kernelWindowPages_le_max hint) hw.hint
  have hfits := hw.fits
  have hzero : (0 : UInt32).toNat = 0 := rfl
  refine ⟨hw.aligned, ?_, ?_, ?_, fun va hle hlt => ?_⟩
  · simp only [userBase, MemoryLayout.kernelWindowEnd, kernelWindowPages] at hstart ⊢
    omega
  · exact pagesSpanning_le_iff.mp (Nat.le_refl _)
  · simp only [pageSize_value]
    omega
  · have hva := va.pageIndex_mul_add_offset
    have hvanumber : va.pageIndex = va.pageNumber := rfl
    have hoff := va.pageOffset_toNat
    simp only [pageSize_value] at hlt
    exact Mmu.translate_of_absent hv va
      (hv.offered (hw.grown.before _ (by omega) (by omega)))

namespace Kernel

variable {k : Kernel} {managed : Frame → Prop} {gap : Prop} {bootMap : BootMap}
  {kernelEnd : PhysicalAddress} {m : Machine} {t : Traced Kernel}

theorem Reachable.secluded (ht : Reachable bootMap kernelEnd m t) {pid : ProcessId} {p : Process}
    (hp : t.state.process? pid = some p) : p.space.Secluded t.state.machine.ram := by
  have hsteady := ht.inv.1.steady
  have hu := users_of_process? hp
  exact (ht.usersHave Mmu.confined_spaceProperty _ _ hu).secluded (hsteady.userSound hu)
    fun _ => hsteady.owned hu

/-- Along a run no process reaches below the user base. Its space shows nothing of the kernel
window, memory is placed above it on pages that were not mapped, and whatever is done next,
no page of the window is on offer afterwards. -/
theorem processes_above_kernel_window (ht : Reachable bootMap kernelEnd m t) :
    (∀ pid p, t.state.process? pid = some p → p.space.Secluded t.state.machine.ram) ∧
    (∀ pid hint length writable base u,
      (Kernel.map pid hint length writable).run t = .ok (.ok base) u →
        ∃ p, t.state.process? pid = some p ∧
          p.space.Vacant t.state.machine.ram base length) ∧
    ∀ (op : Operation) (t' : Traced Kernel), op.perform t = .ok () t' →
      ∀ pid p, t'.state.process? pid = some p →
        ∀ page < kernelWindowPages, p.space.isAvailable page = false := by
  refine ⟨fun pid p hp => ht.secluded hp, ?_, ?_⟩
  · intro pid hint length writable base u hrun
    have hinv := ht.inv.1
    obtain ⟨p, w, hp, -, hw⟩ := (Op.Meets.post (map_meets hinv pid hint length writable) hrun).1
    exact ⟨p, hp, hw.vacant (hinv.steady.userSound (users_of_process? hp))⟩
  · intro op t' hop pid p hp
    exact ((ht.step op hop).secluded hp).withheld

theorem processes_above_kernel_window_reading : ∃ t base u p q, reading = some t ∧
    (Kernel.map ⟨2⟩ (.ofBits 0) 4096 true).run t = .ok (.ok base) u ∧
      t.state.process? ⟨2⟩ = some p ∧ p.space.Secluded t.state.machine.ram ∧
      p.space.Vacant t.state.machine.ram base 4096 ∧ u.state.process? ⟨2⟩ = some q ∧
      ∀ page < kernelWindowPages, q.space.isAvailable page = false := by
  have hrun : (reading.any ((Kernel.map ⟨2⟩ (.ofBits 0) 4096 true).answeredWith
      fun u => (u.state.process? ⟨2⟩).isSome)) = true := by
    simp only [reading, run, List.foldlM_cons, List.foldlM_nil, after, Operation.perform, spawn,
      Process.create_eq]
    decide +kernel
  obtain ⟨t, ht, h⟩ := (Option.any_eq_true _ _).mp hrun
  obtain ⟨base, u, hmap, hsome⟩ := Call.exists_of_answeredWith h
  obtain ⟨q, hq⟩ := Option.isSome_iff_exists.mp hsome
  obtain ⟨hsecluded, hvacant, hlater⟩ := processes_above_kernel_window (reachable_iff.mpr ⟨_, ht⟩)
  obtain ⟨p, hp, hbase⟩ := hvacant ⟨2⟩ _ _ _ base u hmap
  have hop : (Operation.map ⟨2⟩ (.ofBits 0) 4096 true).perform t = .ok () u :=
    perform_of_attempt (isOk_of_run hmap)
  exact ⟨t, base, u, p, q, ht, hmap, hp, hsecluded ⟨2⟩ p hp, hbase, hq, hlater _ u hop ⟨2⟩ q hq⟩

end Kernel
end PagedKernel
