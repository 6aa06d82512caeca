import PagedKernel.Proofs.Kernel.Ownership

/-! Processes are isolated. An operation for one process changes nothing another process
has: not its record, not its page tables, not the contents of its frames, not its queued
reads. An operation for no process changes no space and no frame of any process. -/

namespace PagedKernel

namespace AddressSpace

/-- The space uses a frame: for its directory, for a table, or for a page it maps. -/
def Uses (s : AddressSpace) (ram : Ram) (f : Frame) : Prop :=
  s.directory = f ∨ (∃ slot, s.Links ram slot f) ∨
    ∃ (page : Page) (e : TableEntry), s.entry ram page.base = .ok e ∧ e.isPresent = true ∧
      e.frame = f

structure Unmoved (s : AddressSpace) (ram ram' : Ram) : Prop where
  entry : ∀ va, s.entry ram' va = s.entry ram va
  words : ∀ f, s.Uses ram f → ram'.words f = ram.words f

variable {m m' : Machine} {s : AddressSpace} {f : Frame}

theorem Uses.held (hs : (Mmu.mk m s).Sound) (ho : ∀ p, ((Mmu.mk m s).leaf p).isPresent = true →
    ((Mmu.mk m s).leaf p).isBorrowed = false) (h : s.Uses m.ram f) :
    ∃ r, (Mmu.mk m s).held r = some f := by
  rcases h with rfl | ⟨slot, hl⟩ | ⟨page, e, he, hp, hf⟩
  · exact ⟨.directory, rfl⟩
  · exact ⟨_, (Mmu.links_iff hs slot).mp hl⟩
  · have hleaf := Except.ok.inj ((Mmu.entry_eq hs page.base).symm.trans he)
    rw [← hleaf] at hp hf
    exact ⟨_, Mmu.held_page_eq_some.mpr ⟨hp, ho _ hp, hf⟩⟩

theorem unmoved_of_untouched (hs : (Mmu.mk m s).Sound) (hs' : (Mmu.mk m' s).Sound)
    (ho : ∀ p, ((Mmu.mk m s).leaf p).isPresent = true →
      ((Mmu.mk m s).leaf p).isBorrowed = false)
    (h : Untouched m m' s) : s.Unmoved m.ram m'.ram where
  entry va := by
    have hv := Mmu.entry_eq hs va
    have hw := Mmu.entry_eq hs' va
    rw [h.view.2.2.1] at hw
    exact hw.trans hv.symm
  words f hf := by
    obtain ⟨r, hr⟩ := hf.held hs ho
    exact h r f hr

end AddressSpace

namespace Kernel

variable {k k' : Kernel} {managed : Frame → Prop} {gap : Prop}

namespace Operation

/-- What an operation must leave alone: for the process it is issued for, all that the
others have; otherwise the memory of every process. -/
def Isolates (op : Operation) (k k' : Kernel) : Prop :=
  match op.issuer with
  | some a => ∀ b p, b ≠ a → k.process? b = some p → k'.process? b = some p ∧
      k'.queue.entries.filter (fun e => e.pid = b) = k.queue.entries.filter (fun e => e.pid = b) ∧
      p.space.Unmoved k.machine.ram k'.machine.ram
  | none => ∀ b p, k.process? b = some p → ∃ p', k'.process? b = some p' ∧ p'.space = p.space ∧
      p.space.Unmoved k.machine.ram k'.machine.ram

end Operation

theorem Inv.unmoved (h : Inv managed gap k) (h' : Inv managed gap k') {b : ProcessId}
    {s : AddressSpace} (hs : k.users b = some s) (hs' : k'.users b = some s)
    (hu : Untouched k.machine k'.machine s) : s.Unmoved k.machine.ram k'.machine.ram :=
  AddressSpace.unmoved_of_untouched (h.steady.userSound hs) (h'.steady.userSound hs')
    (fun _ => h.steady.owned hs) hu

theorem Inv.isolates (h : Inv managed gap k) (h' : Inv managed gap k') {op : Operation}
    (hl : op.Leaves k k') : op.Isolates k k' := by
  unfold Operation.Leaves at hl
  unfold Operation.Isolates
  cases hi : op.issuer with
  | some a =>
    rw [hi] at hl
    have hspares : Spares a k k' := hl
    intro b p hne hp
    have hp' : k'.process? b = some p := (hspares.process b hne).trans hp
    refine ⟨hp', hspares.queued b hne, ?_⟩
    exact h.unmoved h' (users_of_process? hp) (users_of_process? hp')
      (hspares.untouched b _ hne (users_of_process? hp))
  | none =>
    rw [hi] at hl
    have hshelters : Shelters k k' := hl
    intro b p hp
    have hs := users_of_process? hp
    have hs' := hshelters.users b _ hs
    obtain ⟨p', hp', hspace⟩ := users_eq_some hs'
    exact ⟨p', hp', hspace, h.unmoved h' hs hs' (hshelters.untouched b _ hs)⟩

/-- Along a run, every operation isolates the processes. It can only fault where a managed
frame is not installed, or no process number is left. -/
theorem processes_isolated {map : BootMap} {kernelEnd : PhysicalAddress} {m : Machine}
    {t : Traced Kernel} (h : Reachable map kernelEnd m t) (op : Operation) :
    match op.perform t with
    | .ok _ t' => op.Isolates t.state t'.state
    | .error _ _ => Gap map kernelEnd m ∨ ¬ t.state.PidsLeft := by
  have hstep := h.perform op
  revert hstep
  cases op.perform t with
  | ok u t' => exact fun hstep => h.inv.1.isolates hstep.1.1 hstep.1.2
  | error f t' => exact fun hstep => hstep.1

theorem processes_isolated_reading : ∃ t, reading = some t ∧
    (t.state.process? ⟨2⟩).isSome = true ∧ match (Operation.exit ⟨1⟩).perform t with
      | .ok _ t' => (Operation.exit ⟨1⟩).Isolates t.state t'.state
      | .error _ _ => Gap nineFrames (.ofBits 0) ⟨.arena 10, .empty⟩ ∨ ¬ t.state.PidsLeft := by
  obtain ⟨t, ht, hreading, -, hp⟩ := reading_in_flight
  exact ⟨t, hreading, hp, processes_isolated ht (.exit ⟨1⟩)⟩

end Kernel
end PagedKernel
