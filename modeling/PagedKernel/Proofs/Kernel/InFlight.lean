import PagedKernel.Proofs.Kernel.Run

/-! Reads in flight. Every byte of the buffer that the device writes to, as the kernel
sees it, is the byte of the user buffer that the process sees, in a frame of that
process, until the read leaves the queue. -/

namespace PagedKernel

namespace Kernel

/-- A byte that the kernel may write at an address of its own, and that a process
finds at an address of its space, in a frame it owns. -/
structure SharedByte (k : Kernel) (p : Process) (kva uva : VirtualAddress)
    (pa : PhysicalAddress) : Prop where
  kernel : k.space.translate k.machine.ram kva = .ok (some pa)
  user : p.space.translate k.machine.ram uva = .ok (some pa)
  owned : ∃ e, p.space.entry k.machine.ram uva = .ok e ∧ e.isPresent = true ∧
    e.isBorrowed = false ∧ e.frame = pa.frame
  lent : ∃ e, k.space.entry k.machine.ram kva = .ok e ∧ e.isPresent = true ∧
    e.isBorrowed = true ∧ e.isWritable = true
  taken : k.machine.pool.isAvailable pa.frame = false

/-- A queued read holds a loan of its process's buffer, byte for byte. -/
structure PointsHome (k : Kernel) (e : QueueEntry) (p : Process) (loan : Loan) : Prop where
  process : k.process? e.pid = some p
  loan : e.read.loan = some loan
  shared : ∀ i < e.read.count, ∃ kva uva pa, kva.toNat = e.read.kernelBuffer.toNat + i ∧
    uva.toNat = e.read.userBuffer.toNat + i ∧ k.SharedByte p kva uva pa

end Kernel

namespace Loan

variable {r : Read} {loan : Loan} {v u : Mmu}

theorem Fits.address (h : loan.Fits r) {i : Nat} (hi : i < r.count) :
    ∃ (kva uva : VirtualAddress) (j : Nat), kva.toNat = r.kernelBuffer.toNat + i ∧
      uva.toNat = r.userBuffer.toNat + i ∧ j < loan.pages ∧
      kva.pageNumber = loan.base.pageNumber + j ∧
      uva.pageNumber = r.userBuffer.pageNumber + j ∧ kva.offset = uva.offset := by
  have hspan := h.span
  have hpages := h.pages_eq
  have huser := h.user
  have hwindow : loan.base.pageNumber + loan.pages ≤ 983040 := h.window.2
  have hzero : loan.base.offset.toNat = 0 := congrArg UInt32.toNat h.aligned
  have hbase := loan.base.toNat_eq
  have hbuffer := h.buffer
  have hub := r.userBuffer.toNat_eq
  have hkb := r.kernelBuffer.toNat_eq
  have hoff : r.userBuffer.offset.toNat < 4096 := UInt32.lt_iff_toNat_lt.mp r.userBuffer.offset_lt
  have hkoff : r.kernelBuffer.offset.toNat < 4096 :=
    UInt32.lt_iff_toNat_lt.mp r.kernelBuffer.offset_lt
  simp only [pageCount_value] at huser
  rw [pagesSpanning, hspan] at hpages
  have hoffset : r.kernelBuffer.offset = r.userBuffer.offset := UInt32.toNat_inj.mp (by omega)
  obtain ⟨kva, uva, j, hk, hu, hj, hkpage, hupage, hsame⟩ :=
    VirtualAddress.exists_moved (i := i) hoffset (by omega) (by omega)
  exact ⟨kva, uva, j, hk, hu, by omega, by omega, hupage, hsame⟩

end Loan

namespace Kernel

variable {k : Kernel} {e : QueueEntry} {managed : Frame → Prop} {gap : Prop}

theorem Inv.pointsHome (h : Inv managed gap k) (he : e ∈ k.queue.entries)
    (hc : 0 < e.read.count) : ∃ p loan, k.PointsHome e p loan := by
  have hsits := h.steady.sits e he
  obtain ⟨u, hu, hback⟩ := hsits.backed
  obtain ⟨p, hp, rfl⟩ := users_eq_some hu
  cases hl : e.read.loan with
  | none =>
    have h0 := hsits.unlent hl
    omega
  | some loan =>
    refine ⟨p, loan, hp, hl, ?_⟩
    intro i hi
    obtain ⟨kva, uva, j, hk, hu', hj, hkpage, hupage, hoffset⟩ := (hsits.fits hl).address hi
    obtain ⟨hpresent, hlent⟩ := hback hl j hj
    rw [← hupage] at hpresent hlent
    rw [← hkpage] at hlent
    have hsound := h.steady.userSound hu
    have hkpresent : (k.mmu.leaf kva.pageNumber).isPresent = true := by
      rw [hlent]
      rfl
    obtain ⟨pa, hframe, hkernel, huser⟩ := Mmu.translate_alike h.steady.sound hsound hkpresent
      hpresent (by rw [hlent]; rfl) hoffset
    have howned := h.steady.owned hu hpresent
    refine ⟨kva, uva, pa, hk, hu', hkernel, huser, ?_, ?_, ?_⟩
    · exact ⟨_, Mmu.entry_eq hsound uva, hpresent, howned, hframe.symm⟩
    · refine ⟨_, Mmu.entry_eq h.steady.sound kva, ?_⟩
      rw [hlent]
      exact ⟨rfl, rfl, rfl⟩
    · rw [hframe]
      exact Bool.eq_false_iff.mpr (hsound.not_available
        (Mmu.held_page_eq_some.mpr ⟨hpresent, howned, rfl⟩))

/-- A read in flight points at live memory of its own process, and the loans of two
reads have no page in common. -/
theorem reads_point_home {map : BootMap} {kernelEnd : PhysicalAddress} {m : Machine}
    {t : Traced Kernel} (h : Reachable map kernelEnd m t) :
    (∀ e ∈ t.state.queue.entries, 0 < e.read.count → ∃ p loan, t.state.PointsHome e p loan) ∧
      t.state.queue.entries.Pairwise fun a b => ∀ loan other, a.read.loan = some loan →
        b.read.loan = some other → ∀ page, ¬ (loan.Covers page ∧ other.Covers page) := by
  have hinv := h.inv.1
  refine ⟨fun e he hc => hinv.pointsHome he hc, ?_⟩
  refine hinv.steady.separate.imp ?_
  rintro a b ⟨-, hapart⟩ loan other hl ho page ⟨hp, hp'⟩
  exact hapart hl ho page hp hp'

theorem reads_point_home_reading : ∃ t e, reading = some t ∧ e ∈ t.state.queue.entries ∧
    0 < e.read.count ∧ ∃ p loan, t.state.PointsHome e p loan := by
  obtain ⟨t, ht, hreading, ⟨e, he, hc⟩, -⟩ := reading_in_flight
  exact ⟨t, e, hreading, he, hc, (reads_point_home ht).1 e he hc⟩

end Kernel
end PagedKernel
