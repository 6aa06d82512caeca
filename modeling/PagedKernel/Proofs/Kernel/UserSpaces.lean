import PagedKernel.Proofs.Kernel.Run

/-! Properties of process spaces. A property holds of every process all along a run when a
new space has it, the ways in which a process changes its own space keep it, and it does not
depend on frames the space does not hold. -/

namespace PagedKernel

/-- A property that process spaces begin with and keep. -/
structure SpaceProperty (P : Mmu → Prop) : Prop where
  untouched : ∀ {m m' : Machine} {s : AddressSpace}, Untouched m m' s → P ⟨m, s⟩ → P ⟨m', s⟩
  created : ∀ {m m' : Machine} {p : Process}, AddressSpace.Created m m' p.space →
    p = .first p.pid p.space.directory → P ⟨m', p.space⟩
  mapped : ∀ {v w : Mmu} {writable : Bool} {hint base : VirtualAddress} {length : Nat},
    Mmu.Mapped writable true v w (hint.max MemoryLayout.userBaseAddress) base length → P v → P w
  restored : ∀ {v w : Mmu}, Mmu.Restored true v w → P v → P w
  unassigned : ∀ {v w : Mmu} {first n : Nat}, Mmu.Unassigned v w first n → P v → P w

namespace Kernel

variable {k k' : Kernel} {managed : Frame → Prop} {gap : Prop} {P : Mmu → Prop}

def UsersHave (P : Mmu → Prop) (k : Kernel) : Prop :=
  ∀ pid u, k.users pid = some u → P ⟨k.machine, u⟩

namespace UsersHave

theorem of_untouched (hP : SpaceProperty P) (h : UsersHave P k)
    (hold : ∀ pid u, k'.users pid = some u →
      k.users pid = some u ∧ Untouched k.machine k'.machine u) : UsersHave P k' := by
  intro pid u hu
  obtain ⟨hbefore, huntouched⟩ := hold pid u hu
  exact hP.untouched huntouched (h pid u hbefore)

theorem update (hP : SpaceProperty P) (h : UsersHave P k) {pid : ProcessId} {w : Mmu}
    (hs : Spared managed gap k.users k.mmu k.slots k.queue.entries pid w.machine (some w.space))
    (hmachine : k'.machine = w.machine)
    (husers : k'.users = Function.update k.users pid (some w.space)) (hw : P w) :
    UsersHave P k' := by
  intro other u hu
  rw [hmachine]
  rw [husers] at hu
  by_cases he : other = pid
  · subst he
    rw [Function.update_self] at hu
    cases hu
    exact hw
  · rw [Function.update_of_ne he] at hu
    exact hP.untouched (hs.others other u he hu) (h other u hu)

theorem withUser (hP : SpaceProperty P) (h : UsersHave P k) {pid : ProcessId} {p : Process}
    {w : Mmu} (hp : k.process? pid = some p)
    (hs : Spared managed gap k.users k.mmu k.slots k.queue.entries pid w.machine (some w.space))
    (hw : P ⟨k.machine, p.space⟩ → P w) : UsersHave P (k.withUser p w) :=
  h.update hP hs rfl (users_withUser hp) (hw (h _ _ (users_of_process? hp)))

end UsersHave

theorem Outcome.usersHave (hP : SpaceProperty P) {op : Operation} {answered : Bool}
    (h : Inv managed gap k) (hk : UsersHave P k) (ho : Outcome managed gap k op answered k') :
    UsersHave P k' := by
  induction ho with
  | refused op => exact hk
  | deviceMapped hw =>
    exact hk.of_untouched hP fun _ _ hu => ⟨hu, (h.steady.identified hw).2 _ _ hu⟩
  | @spawned k' p m' hs =>
    obtain ⟨hnone, husers⟩ := hs.users h
    have hfirst := hs.process
    rw [← hs.pid_eq] at hfirst
    exact hk.update hP (w := ⟨m', p.space⟩) (h.steady.userCreated hnone hs.created)
      (by rw [hs.kernel]) husers (hP.created hs.created hfirst)
  | mapped hp hw =>
    exact hk.withUser hP hp (h.steady.userGrown (users_of_process? hp) hw.grown) (hP.mapped hw)
  | mapUndone hp hw =>
    exact hk.withUser hP hp (h.steady.userRestored (users_of_process? hp) hw) (hP.restored hw)
  | unmapped hp hb h0 _ hw =>
    exact hk.withUser hP hp (h.steady.userUnassigned (users_of_process? hp) hw
      (not_borrowed h hb h0)) (hP.unassigned hw)
  | @queued _ _ _ _ p r w hp hr hs =>
    refine hk.of_untouched hP fun _ _ hu => ?_
    rw [users_queueing] at hu
    exact ⟨hu, (h.steady.prepared (users_of_process? hp) hr hs).2 _ _ hu⟩
  | lendUndone hw =>
    exact hk.of_untouched hP fun _ _ hu => ⟨hu, (h.steady.restored hw).2 _ _ hu⟩
  | @ended pid k' p v hp he =>
    obtain ⟨-, rfl⟩ := mem_of_process? hp
    refine hk.of_untouched hP fun pid u hu => ?_
    have hne : pid ≠ p.pid := by
      rintro rfl
      rw [he.users, Function.update_self] at hu
      cases hu
    rw [he.users, Function.update_of_ne hne] at hu
    exact ⟨hu, (he.keeps h hp).2.untouched pid u hne hu⟩
  | @ticked _ _ _ _ completions k₁ hp =>
    refine hk.of_untouched hP fun _ _ hu => ?_
    rw [(wakeAndPark_reschedules completions k₁).users, hp.users] at hu
    exact ⟨hu, (hp.keeps h).2.untouched _ _ hu⟩
  | called _ _ _ _ ih => exact ih

theorem Reachable.usersHave (hP : SpaceProperty P) {map : BootMap} {kernelEnd : PhysicalAddress}
    {m : Machine} {t : Traced Kernel} (h : Reachable map kernelEnd m t) : UsersHave P t.state :=
  h.preserved (fun _ _ _ => nofun) fun hinv hk ho => ho.usersHave hP hinv hk

end Kernel
end PagedKernel
