import PagedKernel.Proofs.Kernel.UserSpaces

/-! The links of a directory are alike: those of the kernel space shut user code out, those
of a process let it in. Which tables are linked thus says all about the contents of the
directory. -/

namespace PagedKernel

variable {m m' : Machine} {s : AddressSpace} {user : Bool}

theorem Untouched.uniform (h : Untouched m m' s) (hu : (Mmu.mk m s).Uniform user) :
    (Mmu.mk m' s).Uniform user := by
  intro slot
  rw [h.view.1, h.view.2.1]
  exact hu slot

theorem Mmu.uniform_spaceProperty : SpaceProperty (Mmu.Uniform true) where
  untouched h := h.uniform
  created h _ := h.uniform true
  mapped h := h.grown.uniform
  restored h := h.uniform
  unassigned h := h.uniform true

namespace Kernel

variable {k k' : Kernel} {managed : Frame → Prop} {gap : Prop}

structure LinksAlike (k : Kernel) : Prop where
  kernel : k.mmu.Uniform false
  users : ∀ {pid u}, k.users pid = some u → (Mmu.mk k.machine u).Uniform true

theorem Passed.uniform {ended : List Completion} {v : Mmu} (h : Passed k k' ended v)
    (hu : k.mmu.Uniform user) : v.Uniform user := by
  refine ReadQueue.Pass.mapper (P := Mmu.Uniform user) ?_ h hu
  intro r a b hback ha
  unfold Returned at hback
  split at hback
  · rwa [hback]
  · exact hback.uniform user ha

end Kernel

theorem Read.Prepared.uniform {u v w : Mmu} {r : Read} (h : r.Prepared u v w)
    (hv : v.Uniform false) : w.Uniform false := by
  cases hl : r.loan with
  | none =>
    obtain ⟨-, rfl⟩ := h.unlent hl
    exact hv
  | some loan => exact (h.lent hl).2.grown.uniform hv

namespace Kernel

variable {k k' : Kernel} {managed : Frame → Prop} {gap : Prop}

theorem Outcome.kernelUniform {op : Operation} {answered : Bool} (h : Inv managed gap k)
    (hl : k.mmu.Uniform false) (ho : Outcome managed gap k op answered k') :
    k'.mmu.Uniform false := by
  induction ho with
  | refused op => exact hl
  | deviceMapped hw => exact hw.uniform hl
  | @spawned k' p m' hs =>
    obtain ⟨hnone, -⟩ := hs.users h
    rw [hs.kernel]
    exact (h.steady.userCreated hnone hs.created).kernel.uniform hl
  | mapped hp hw =>
    exact (h.steady.userGrown (users_of_process? hp) hw.grown).kernel.uniform hl
  | mapUndone hp hw => exact (h.steady.userRestored (users_of_process? hp) hw).kernel.uniform hl
  | unmapped hp hb h0 _ hw =>
    exact (h.steady.userUnassigned (users_of_process? hp) hw
      (not_borrowed h hb h0)).kernel.uniform hl
  | queued hp hr hs => exact hr.uniform hl
  | lendUndone hw => exact hw.uniform hl
  | @ended pid k' p v hp he =>
    obtain ⟨_, hpassed, -⟩ := he.passed
    rw [mmu, he.space]
    exact (he.untouched v.space).uniform (hpassed.uniform hl)
  | @ticked _ _ _ _ completions k₁ hp =>
    rw [(wakeAndPark_reschedules completions k₁).mmu]
    exact hp.passed.uniform hl
  | called _ _ _ _ ih => exact ih

theorem Reachable.linksAlike {map : BootMap} {kernelEnd : PhysicalAddress} {m : Machine}
    {t : Traced Kernel} (h : Reachable map kernelEnd m t) : LinksAlike t.state where
  kernel := h.preserved (P := fun k => k.mmu.Uniform false) (fun hbooted => hbooted.uniform)
    fun hinv hl ho => ho.kernelUniform hinv hl
  users hu := h.usersHave Mmu.uniform_spaceProperty _ _ hu

end Kernel
end PagedKernel
