import PagedKernel.Kernel.Calls
import PagedKernel.Proofs.Host.Landing
import PagedKernel.Proofs.Range.Identity
import PagedKernel.Proofs.Range.Lending

/-! Requests for no bytes. Those that look at the length are refused, or do nothing, wherever
they are made. Those that go by the pages a range touches are so at the beginning of a page
only: at any other address the page of the address counts, and no bytes are as good as one. -/

namespace PagedKernel

open Mmu

variable {v : Mmu} {bits : UInt32}

/-- Of the requests for no bytes at an address, those to map and to unmap are refused as an
invalid range, and a read borrows nothing. No state is changed by them. -/
structure IdleByLength (bits : UInt32) : Prop where
  map : ∀ v writable user,
    (Mmu.map (.ofBits bits) 0 writable user).run.Gives v (.error .invalidRange) v
  unmap : ∀ v, (Mmu.unmap (.ofBits bits) 0).run.Gives v (.error .invalidRange) v
  read : ∀ {μ : Type} (mapper : AliasMapper μ) (fd : Fd) (slot : SlotId) (m : μ),
    (Read.prepare mapper fd (.ofBits bits) 0 slot).run.Gives m
      (.ok ⟨fd, .ofBits bits, .zero, 0, none, .notStarted, slot⟩) m
  borrows : ∀ r : Read, r.borrows (.ofBits bits) 0 = false

/-- Those to lend and to take back are refused as empty, and identity maps have no pages, also
for device memory. No state is changed by them. -/
structure IdleByPages (bits : UInt32) : Prop where
  lend : ∀ v source, (Mmu.lend (some source) (.ofBits bits) 0).run.Gives v (.error .empty) v
  takeBack : ∀ v, (Mmu.takeBack (.ofBits bits) 0).run.Gives v (.error .empty) v
  identity : ∀ v writable, (Mmu.mapIdentity (.ofBits bits) 0 writable).run.Gives v (.ok 0) v
  device : ∀ k, Kernel.isDeviceRange (.ofBits bits) 0 = true →
    (Kernel.mapDevice (.ofBits bits) 0).run.Gives k (.ok 0) k

theorem pagesTouched_zero (va : MemoryAddress) :
    pagesTouched va 0 = if va.toNat % 4096 = 0 then 0 else 1 := by
  rw [pagesTouched, saturatingAdd, maxLength, pagesSpanning, va.pageOffset_toNat]
  split <;> omega

theorem pagesTouched_one (va : MemoryAddress) : pagesTouched va 1 = 1 := by
  rw [pagesTouched, saturatingAdd, maxLength, pagesSpanning, va.pageOffset_toNat]
  omega

section Pages

variable {length length' : Nat}

theorem lend_congr (source? : Option AddressSpace)
    (h : pagesTouched ⟨bits⟩ length = pagesTouched ⟨bits⟩ length') :
    Mmu.lend source? (.ofBits bits) length = Mmu.lend source? (.ofBits bits) length' := by
  change pagesTouched (VirtualAddress.ofBits bits).toMemoryAddress length = _ at h
  unfold Mmu.lend
  dsimp only
  rw [h]
  rfl

theorem takeBack_congr (h : pagesTouched ⟨bits⟩ length = pagesTouched ⟨bits⟩ length') :
    Mmu.takeBack (.ofBits bits) length = Mmu.takeBack (.ofBits bits) length' := by
  change pagesTouched (VirtualAddress.ofBits bits).toMemoryAddress length = _ at h
  unfold Mmu.takeBack
  dsimp only
  rw [h]
  rfl

theorem mapIdentity_congr (writable : Bool)
    (h : pagesTouched ⟨bits⟩ length = pagesTouched ⟨bits⟩ length') :
    Mmu.mapIdentity (.ofBits bits) length writable =
      Mmu.mapIdentity (.ofBits bits) length' writable := by
  change pagesTouched (PhysicalAddress.ofBits bits).toMemoryAddress length = _ at h
  unfold mapIdentity identityPages
  dsimp only
  rw [h]
  rfl

end Pages

theorem idleByLength (bits : UInt32) : IdleByLength bits where
  map _ _ _ events := ⟨events, rfl, .refl events⟩
  unmap _ events := ⟨events, rfl, .refl events⟩
  read mapper fd slot m := by
    refine (Op.run_meets ?_).gives
    exact Call.record_bind_meets (by rintro ⟨⟩) (Call.pure_meets ⟨rfl, rfl⟩)
  borrows r := by
    unfold Read.borrows
    cases r.loan <;> rfl

section Aligned

variable (h : bits.toNat % 4096 = 0)

include h

theorem touched_aligned : pagesTouched ⟨bits⟩ 0 = 0 :=
  (pagesTouched_zero _).trans (if_pos h)

theorem mapIdentity_aligned (writable : Bool) :
    Mmu.mapIdentity (.ofBits bits) 0 writable = (do
      Call.record (.range (.identityMapped 0 (.ofBits bits)))
      return 0) := by
  have htouched : pagesTouched (PhysicalAddress.ofBits bits).toMemoryAddress 0 = 0 :=
    touched_aligned h
  have hnone : (identityPages (.ofBits bits) 0).2 - (identityPages (.ofBits bits) 0).1 = 0 := by
    rw [identityPages, htouched]
    dsimp only
    omega
  unfold mapIdentity
  dsimp only
  rw [hnone]
  rfl

theorem idleByPages : IdleByPages bits where
  lend v source := by
    have htouched : pagesTouched (VirtualAddress.ofBits bits).toMemoryAddress 0 = 0 :=
      touched_aligned h
    refine (Op.run_meets ?_).gives
    unfold Mmu.lend
    dsimp only
    rw [if_pos htouched]
    exact Call.throw_bind_meets ⟨rfl, rfl⟩
  takeBack v := by
    have htouched : pagesTouched (VirtualAddress.ofBits bits).toMemoryAddress 0 = 0 :=
      touched_aligned h
    refine (Op.run_meets ?_).gives
    unfold Mmu.takeBack
    dsimp only
    rw [if_pos htouched]
    exact Call.throw_bind_meets ⟨rfl, rfl⟩
  identity v writable := by
    rw [mapIdentity_aligned h]
    exact fun events => ⟨_, rfl, .push events nofun⟩
  device k hdevice := by
    unfold Kernel.mapDevice
    rw [if_pos hdevice, mapIdentity_aligned h]
    intro events
    refine ⟨_, rfl, (Quiet.push events ?_).trans (.push _ ?_)⟩
    · rintro ⟨⟩
    · rintro ⟨⟩

end Aligned

theorem takeBack_unaligned_meets (hv : v.Sound) (h : bits.toNat % 4096 ≠ 0) :
    (Mmu.takeBack (.ofBits bits) 0).Meets False v (fun _ _ => True) fun e _ => e ≠ .empty := by
  have htouched : pagesTouched (VirtualAddress.ofBits bits).toMemoryAddress 0 = 1 :=
    (pagesTouched_zero ⟨bits⟩).trans (if_neg h)
  unfold Mmu.takeBack
  dsimp only
  rw [htouched, if_neg one_ne_zero]
  refine Call.Meets.bind (Call.adapt_meets ((unassign_meets hv _ 1).mono (fun _ _ => id) ?_)) ?_
  · exact fun _ _ _ => nofun
  · exact fun _ w _ => Call.record_meets (by rintro ⟨⟩) trivial

theorem aligned_of_idleByPages (h : IdleByPages bits) : bits.toNat % 4096 = 0 := by
  obtain ⟨v, hv⟩ : ∃ v, emptySpace = some v := Option.isSome_iff_exists.mp (by decide +kernel)
  obtain ⟨hcreated, -⟩ := emptySpace_created hv
  refine Classical.byContradiction fun hne => ?_
  obtain ⟨_, hrun, -⟩ := h.takeBack v #[]
  exact (Op.Meets.post (takeBack_unaligned_meets hcreated.sound hne) hrun).1 rfl

theorem empty_idle_iff (bits : UInt32) : IdleByLength bits ∧
    (IdleByPages bits ↔ bits.toNat % 4096 = 0) ∧
    (bits.toNat % 4096 ≠ 0 →
      (∀ source?, Mmu.lend source? (.ofBits bits) 0 = Mmu.lend source? (.ofBits bits) 1) ∧
      Mmu.takeBack (.ofBits bits) 0 = Mmu.takeBack (.ofBits bits) 1 ∧
      ∀ writable, Mmu.mapIdentity (.ofBits bits) 0 writable =
        Mmu.mapIdentity (.ofBits bits) 1 writable) := by
  refine ⟨idleByLength bits, ⟨aligned_of_idleByPages, idleByPages⟩, fun h => ?_⟩
  have htouched : pagesTouched ⟨bits⟩ 0 = pagesTouched ⟨bits⟩ 1 :=
    ((pagesTouched_zero ⟨bits⟩).trans (if_neg h)).trans (pagesTouched_one _).symm
  exact ⟨fun source? => lend_congr source? htouched, takeBack_congr htouched,
    fun writable => mapIdentity_congr writable htouched⟩

/-- Half a page on, an identity map of no bytes maps a page. -/
theorem not_empty_idle_halfPage : ¬ ∀ bits, IdleByLength bits ∧ IdleByPages bits := by
  have hsome : (emptySpace.any fun v =>
      ((mapIdentity (.ofBits 6144) 0 true).answer? v).any fun (mapped, t) =>
        mapped = 1 ∧ (t.state.leaf 1).isPresent = true) = true := by
    decide +kernel
  obtain ⟨v, -, hany⟩ := (Option.any_eq_true _ _).mp hsome
  obtain ⟨⟨mapped, t⟩, hanswer, hmapped⟩ := (Option.any_eq_true _ _).mp hany
  obtain ⟨rfl, -⟩ := of_decide_eq_true hmapped
  intro h
  obtain ⟨_, hrun, -⟩ := (h 6144).2.identity v true #[]
  cases hrun.symm.trans (Call.run_of_answer? hanswer)

end PagedKernel
