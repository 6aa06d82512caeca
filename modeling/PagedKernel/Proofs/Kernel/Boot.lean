import PagedKernel.Proofs.Agreement
import PagedKernel.Proofs.Kernel.Invariant

/-! Bringing the kernel up. The frames the pool is seeded with are the managed ones
from then on; those the kernel space needs come from them, and every page of the image
and of the usable regions below the window's end maps the frame of its own number. -/

namespace PagedKernel.Kernel

variable {v w : Mmu} {m m' : Machine} {s : AddressSpace} {map : BootMap}
  {kernelEnd : PhysicalAddress} {gap : Prop} {r : Region} {p : Nat}

/-- The frames the boot map makes available. -/
def Managed (map : BootMap) (kernelEnd : PhysicalAddress) (f : Frame) : Prop :=
  (FramePool.Seeding.ofBootMap map kernelEnd).pool.isAvailable f = true

/-- More frames lie above the window than can be counted. -/
def Overfull (map : BootMap) (kernelEnd : PhysicalAddress) : Prop :=
  ¬ FramePool.Seeding.totalLeftOut map kernelEnd ≤ maxLength

/-- The pages identity-mapped for a usable region. -/
def RegionPage (r : Region) (p : Nat) : Prop :=
  ∃ start, r.start = some start ∧ start.toNat < MemoryLayout.kernelWindowEnd ∧
    Mmu.InIdentity start (min r.endClipped MemoryLayout.kernelWindowEnd - start.toNat) p

/-- The pages identity-mapped for the kernel image. -/
def ImagePage (kernelEnd : PhysicalAddress) (p : Nat) : Prop :=
  Mmu.InIdentity (.ofBits (UInt32.ofNat MemoryLayout.imageStart))
    (kernelEnd.toNat - MemoryLayout.imageStart) p

/-- The pages identity-mapped at boot. -/
def BootPage (map : BootMap) (kernelEnd : PhysicalAddress) (p : Nat) : Prop :=
  ImagePage kernelEnd p ∨ ∃ r ∈ BootMap.usable map, RegionPage r p

/-! Where these frames and pages lie: all of them below the window's end -/

theorem toNat_of_start {start : PhysicalAddress} (h : r.start = some start) :
    start.toNat = r.base := by
  rw [Region.start] at h
  split at h
  · cases h
    simp only [PhysicalAddress.ofBits, MemoryAddress.toNat, UInt32.toNat_ofNat']
    omega
  · cases h

theorem lt_of_regionPage (h : RegionPage r p) : p < MemoryLayout.kernelWindowPages := by
  obtain ⟨start, -, hlt, hin⟩ := h
  have hbounds := hin.bounds
  simp only [MemoryLayout.kernelWindowEnd, MemoryLayout.kernelWindowPages] at *
  omega

theorem lt_of_imagePage (hk : kernelEnd.toNat ≤ MemoryLayout.kernelWindowEnd)
    (h : ImagePage kernelEnd p) : p < MemoryLayout.kernelWindowPages := by
  have himage : (PhysicalAddress.ofBits (UInt32.ofNat MemoryLayout.imageStart)).toNat =
      MemoryLayout.imageStart := rfl
  have hbounds := (Mmu.InIdentity.bounds h).2
  simp only [MemoryLayout.kernelWindowEnd, MemoryLayout.kernelWindowPages,
    MemoryLayout.imageStart] at *
  omega

theorem lt_of_bootPage (hk : kernelEnd.toNat ≤ MemoryLayout.kernelWindowEnd)
    (h : BootPage map kernelEnd p) : p < MemoryLayout.kernelWindowPages := by
  rcases h with himage | ⟨r, -, hr⟩
  · exact lt_of_imagePage hk himage
  · exact lt_of_regionPage hr

theorem regionPage_of_offers {f : Frame} (h : FramePool.Seeding.Offers kernelEnd r f) :
    RegionPage r f.index.val := by
  obtain ⟨hfirst, hstop⟩ := h
  simp only [FramePool.Seeding.frameRange, FramePool.Seeding.floor, pageSize_value,
    MemoryLayout.kernelWindowPages] at hfirst hstop
  have hbase : r.base ≤ f.index.val * 4096 := by
    rw [← pagesSpanning_le_iff]
    omega
  have hend : (f.index.val + 1) * 4096 ≤ min r.endClipped MemoryLayout.kernelWindowEnd := by
    simp only [MemoryLayout.kernelWindowEnd]
    omega
  obtain ⟨start, hstart⟩ : ∃ start, r.start = some start := by
    rw [Region.start, if_pos (by omega)]
    exact ⟨_, rfl⟩
  have hnat := toNat_of_start hstart
  have hwindow : min r.endClipped MemoryLayout.kernelWindowEnd ≤ MemoryLayout.kernelWindowEnd :=
    Nat.min_le_right _ _
  refine ⟨start, hstart, by omega, ?_⟩
  refine Mmu.inIdentity_of_le (by omega) f.index.isLt (by omega) (by omega) ?_
  simp only [MemoryLayout.kernelWindowEnd] at hwindow ⊢
  omega

theorem bootPage_of_managed {f : Frame} (h : Managed map kernelEnd f) :
    BootPage map kernelEnd f.index.val := by
  obtain ⟨r, hr, hoffers⟩ := (FramePool.Seeding.isAvailable_ofBootMap map kernelEnd f).mp h
  exact .inr ⟨r, hr, regionPage_of_offers hoffers⟩

theorem kernelEnd_lt_of_managed {f : Frame} (h : Managed map kernelEnd f) :
    kernelEnd.toNat < MemoryLayout.kernelWindowEnd := by
  obtain ⟨r, -, hfirst, hstop⟩ := (FramePool.Seeding.isAvailable_ofBootMap map kernelEnd f).mp h
  simp only [FramePool.Seeding.frameRange, FramePool.Seeding.floor,
    MemoryLayout.kernelWindowPages] at hfirst hstop
  have hend : kernelEnd.toNat ≤ f.index.val * 4096 := by
    rw [← pagesSpanning_le_iff]
    omega
  simp only [MemoryLayout.kernelWindowEnd]
  omega

theorem lt_of_managed {f : Frame} (h : Managed map kernelEnd f) :
    f.index.val < MemoryLayout.kernelWindowPages :=
  lt_of_bootPage (Nat.le_of_lt (kernelEnd_lt_of_managed h)) (bootPage_of_managed h)

/-! Mapping the boot memory -/

/-- Identity maps of pages `inside`, all of which are mapped in the end. -/
structure Covered (inside : Nat → Prop) (v w : Mmu) : Prop where
  identified : Mmu.Identified inside true v w
  present : ∀ p, inside p → (w.leaf p).isPresent = true ∧ (w.leaf p).frame.index.val = p

theorem Covered.trans {x : Mmu} {inside outside : Nat → Prop} (h : Covered inside v w)
    (h' : Covered outside w x) : Covered (fun p => inside p ∨ outside p) v x where
  identified := (h.identified.mono fun _ => .inl).trans (h'.identified.mono fun _ => .inr)
  present := by
    rintro p (hp | hp)
    · obtain ⟨hpresent, hframe⟩ := h.present p hp
      rw [h'.identified.kept hpresent]
      exact ⟨hpresent, hframe⟩
    · exact h'.present p hp

theorem start_le_endClipped {start : PhysicalAddress} (h : r.start = some start)
    (hlt : start.toNat < MemoryLayout.kernelWindowEnd) :
    start.toNat ≤ min r.endClipped MemoryLayout.kernelWindowEnd := by
  have hbase := toNat_of_start h
  simp only [Region.endClipped, MemoryLayout.kernelWindowEnd] at hlt ⊢
  omega

theorem mapRegions_meets (hv : v.Sound) (hr : v.Reaches gap) {mapped : Nat}
    (hm : mapped ≤ v.presentPages.card) (rs : List Region) :
    (mapRegions mapped rs).Meets gap v
      (fun _ w => Covered (fun p => ∃ r ∈ rs, RegionPage r p) v w) fun _ _ => True := by
  induction rs generalizing v mapped with
  | nil =>
    refine Call.pure_meets ⟨.refl hv, ?_⟩
    rintro p ⟨r, hr, -⟩
    cases hr
  | cons r rest ih =>
    have skip : (∀ p, ¬ RegionPage r p) → (mapRegions mapped rest).Meets gap v
        (fun _ w => Covered (fun p => ∃ r' ∈ r :: rest, RegionPage r' p) v w) fun _ _ => True := by
      intro hnone
      have hsame : ∀ p, (∃ r' ∈ r :: rest, RegionPage r' p) ↔ ∃ r' ∈ rest, RegionPage r' p := by
        simp [hnone]
      refine (ih hv hr hm).mono (fun _ w hw => ?_) fun _ _ => id
      exact ⟨hw.identified.mono fun p => (hsame p).mpr, fun p hp => hw.present p ((hsame p).mp hp)⟩
    unfold mapRegions
    cases hstart : r.start with
    | none =>
      refine skip ?_
      rintro p ⟨start, hs, -⟩
      rw [hstart] at hs
      cases hs
    | some start =>
      dsimp only
      split
      · next hle =>
        refine skip ?_
        rintro p ⟨start', hs, hlt, -⟩
        rw [hstart] at hs
        cases hs
        omega
      · next hlt =>
        have hstarts := start_le_endClipped hstart (Nat.lt_of_not_le hlt)
        refine (Op.ofExcept_gives (lengthDifference_eq_ok hstarts)).lift_bind ?_
        refine Call.Meets.bind ((Mmu.mapIdentity_meets hv hr start _ true).mono (fun _ _ => id)
          fun _ _ _ => trivial) ?_
        rintro more w ⟨hw, hpresent, hcount⟩
        have hmore : mapped + more ≤ w.presentPages.card := by omega
        refine (Op.ofExcept_gives
          (lengthSum_eq_ok (Mmu.le_maxLength_of_presentPages hmore))).lift_bind ?_
        have hone : Covered (RegionPage r) v w := by
          refine ⟨hw.mono fun p hp => ⟨start, hstart, Nat.lt_of_not_le hlt, hp⟩, ?_⟩
          rintro p ⟨start', hs, -, hp⟩
          rw [hstart] at hs
          cases hs
          exact hpresent p hp
        refine (ih hw.sound (hw.step.reaches hr) hmore).mono (fun _ x hx => ?_) fun _ _ => id
        have hboth := hone.trans hx
        simp only [List.mem_cons, exists_eq_or_imp]
        exact hboth

theorem mapBootMemory_meets (hv : v.Sound) (hr : v.Reaches gap) (map : BootMap)
    (kernelEnd : PhysicalAddress) :
    (mapBootMemory map kernelEnd).Meets gap v (fun _ w => Covered (BootPage map kernelEnd) v w)
      fun _ _ => True := by
  unfold mapBootMemory
  refine Call.Meets.bind (m := fun mapped w => Covered (ImagePage kernelEnd) v w ∧
    mapped ≤ w.presentPages.card) ?_ ?_
  · unfold ImagePage
    generalize PhysicalAddress.ofBits (UInt32.ofNat MemoryLayout.imageStart) = image
    refine (Mmu.mapIdentity_meets hv hr image _ true).mono ?_ fun _ _ _ => trivial
    exact fun _ w hw => ⟨⟨hw.1, hw.2.1⟩, by omega⟩
  · rintro mapped w ⟨hw, hcount⟩
    refine (mapRegions_meets hw.identified.sound (hw.identified.step.reaches hr) hcount _).mono ?_
      fun _ _ => id
    exact fun _ x hx => hw.trans hx

theorem withSpace_meets {ε α : Type} {x : Call ε Mmu α} {answered : α → Mmu → Prop}
    {refused : ε → Mmu → Prop} (hx : x.Meets gap ⟨m, s⟩ answered refused) :
    (withSpace s x).Meets gap m (fun a m' => answered a.1 ⟨m', a.2⟩)
      fun e m' => ∃ s', refused e ⟨m', s'⟩ := by
  intro events
  have h := hx events
  revert h
  simp only [withSpace, ExceptT.run, ExceptT.mk]
  cases x ⟨⟨m, s⟩, events⟩ with
  | ok a t =>
    cases a with
    | ok a => exact id
    | error e => exact fun h => ⟨⟨t.state.space, h.1⟩, h.2⟩
  | error f t => exact id

theorem seed_meets (map : BootMap) (kernelEnd : PhysicalAddress) (pool : FramePool) :
    (FramePool.seed map kernelEnd).Meets (Overfull map kernelEnd) pool
      fun _ pool => pool = (FramePool.Seeding.ofBootMap map kernelEnd).pool := by
  have hcount : Op.Meets (Overfull map kernelEnd)
      (liftM (FramePool.Seeding.ofBootMap map kernelEnd).unmanaged) pool fun _ p => p = pool := by
    refine Op.ofExcept_meets (fun _ _ => rfl) fun f hf hfits => ?_
    rw [FramePool.Seeding.unmanaged_ofBootMap, if_pos hfits] at hf
    cases hf
  unfold FramePool.seed
  refine hcount.bind ?_
  rintro unmanaged - rfl
  refine (Op.record_gives (by rintro ⟨⟩)).bind ?_
  split
  · exact (Op.record_gives (by rintro ⟨⟩)).bind ((Op.modify_gives _).meets rfl)
  · exact (Op.modify_gives _).meets rfl

theorem seed_of_overfull (h : Overfull map kernelEnd) (pool : FramePool) (events : Array Event) :
    FramePool.seed map kernelEnd ⟨pool, events⟩ = .error .addOverflow ⟨pool, events⟩ := by
  have hcount : (FramePool.Seeding.ofBootMap map kernelEnd).unmanaged = .error .addOverflow :=
    (FramePool.Seeding.unmanaged_ofBootMap map kernelEnd).trans (if_neg h)
  unfold FramePool.seed
  rw [hcount]
  rfl

theorem seedPool_meets (map : BootMap) (kernelEnd : PhysicalAddress) (m : Machine) :
    Call.Meets (Overfull map kernelEnd) (Call.zoomOp poolPart (FramePool.seed map kernelEnd) :
      Call KernelError Machine Unit) m
      (fun _ m₁ => m₁ = ⟨m.ram, (FramePool.Seeding.ofBootMap map kernelEnd).pool⟩)
      fun _ _ => False := by
  refine Call.zoomOp_meets poolPart ((seed_meets map kernelEnd m.pool).mono ?_)
  rintro - pool rfl
  rfl

theorem steady_of_created {managed : Frame → Prop} (hp : m.pool.Sound)
    (hm : ∀ f, managed f ↔ m.pool.isAvailable f = true)
    (hr : ∀ f, managed f → m.ram.installed f ∨ gap) (hc : AddressSpace.Created m m' s) :
    Steady managed gap ⟨m', s⟩ (fun _ => none) .empty [] := by
  have hnone : Custody managed m fun _ : Option ProcessId => none :=
    ⟨hp, nofun, nofun, nofun, fun f => by simp [hm]⟩
  have hcustody := hnone.turn (o := none) (Turn.create hc)
  have hspaces : Function.update (fun _ : Option ProcessId => none) none (some s) =
      spacesOf s fun _ => none := by
    funext o
    cases o with
    | none => exact Function.update_self ..
    | some pid => exact Function.update_of_ne (Option.some_ne_none pid) ..
  rw [hspaces] at hcustody
  refine ⟨hcustody, ?_, ?_, nofun, nofun, .nil⟩
  · intro f hf
    rw [hc.installed]
    exact hr f hf
  · intro p hpresent
    rw [Mmu.leaf_of_no_tables hc.tables] at hpresent
    cases hpresent

structure Booted (map : BootMap) (kernelEnd : PhysicalAddress) (gap : Prop) (k : Kernel) :
    Prop where
  inv : Inv (Managed map kernelEnd) gap k
  present : ∀ p, BootPage map kernelEnd p →
    (k.mmu.leaf p).isPresent = true ∧ (k.mmu.leaf p).frame.index.val = p
  uniform : k.mmu.Uniform false
  /-- Nothing is mapped beyond these pages. -/
  identified : ∃ v : Mmu, (∀ p, v.leaf p = .zero) ∧
    Mmu.Identified (BootPage map kernelEnd) true v k.mmu

theorem boot_meets (map : BootMap) (kernelEnd : PhysicalAddress) (m : Machine)
    (hr : ∀ f, Managed map kernelEnd f → m.ram.installed f ∨ gap) :
    (boot map kernelEnd).Meets (gap ∨ Overfull map kernelEnd) m
      (fun s m' => Booted map kernelEnd gap (ofBoot m' s)) fun _ _ => True := by
  unfold boot
  have hseed := (seedPool_meets map kernelEnd m).widen (Or.inr (a := gap))
  refine Call.Meets.bind (hseed.mono (fun _ _ => id) nofun) ?_
  rintro - m₁ rfl
  refine Call.Meets.widen ?_ (Or.inl : gap → gap ∨ Overfull map kernelEnd)
  have hsound := FramePool.ofBootMap_sound map kernelEnd
  have hcreate := AddressSpace.create_meets (m := ⟨m.ram, _⟩) hsound hr
  refine Call.Meets.bind (Call.adapt_meets (hcreate.mono (fun _ _ => id) fun _ _ _ => trivial)) ?_
  rintro space m₂ ⟨hc, -⟩
  have hsteady : Steady (Managed map kernelEnd) gap ⟨m₂, space⟩ (fun _ => none) .empty [] :=
    steady_of_created (m := ⟨m.ram, _⟩) hsound (fun _ => Iff.rfl) hr hc
  have hmap := mapBootMemory_meets hsteady.sound hsteady.reaches map kernelEnd
  refine Call.Meets.bind (m := fun a m₃ => Covered (BootPage map kernelEnd) ⟨m₂, space⟩ ⟨m₃, a.2⟩)
    (Call.adapt_meets ?_) ?_
  · exact (withSpace_meets hmap).mono (fun _ _ => id) fun _ _ _ => trivial
  rintro ⟨mapped, space'⟩ m₃ hcovered
  refine Call.get_bind_meets fun events => ?_
  have hidentified : Steady (Managed map kernelEnd) gap ⟨m₃, space'⟩ (fun _ => none) .empty [] :=
    (hsteady.identified hcovered.identified).1
  have hbooted : Booted map kernelEnd gap (ofBoot m₃ space') :=
    ⟨⟨hidentified, List.nodup_nil, nofun⟩, hcovered.present,
      hcovered.identified.uniform (hc.uniform false),
      ⟨⟨m₂, space⟩, Mmu.leaf_of_no_tables hc.tables, hcovered.identified⟩⟩
  exact Call.record_bind_meets (by rintro ⟨⟩) (Call.pure_meets hbooted)

theorem boot_of_overfull (h : Overfull map kernelEnd) (m : Machine) (events : Array Event) :
    (boot map kernelEnd).run ⟨m, events⟩ = .error .addOverflow ⟨m, events⟩ := by
  unfold boot
  exact Call.run_bind_fault
    (Call.run_lift_fault (Op.zoom_fault poolPart (seed_of_overfull h m.pool events)))

theorem boot_refused (hn : ∀ f, ¬ Managed map kernelEnd f) (m : Machine) :
    (boot map kernelEnd).Meets (Overfull map kernelEnd) m (fun _ _ => False)
      fun e _ => e = .paging .outOfFrames := by
  unfold boot
  refine Call.Meets.bind ((seedPool_meets map kernelEnd m).mono (fun _ _ => id) nofun) ?_
  rintro - m₁ rfl
  have hcreate : AddressSpace.create.Meets (Overfull map kernelEnd) _ _ _ :=
    AddressSpace.create_meets (m := ⟨m.ram, _⟩) (FramePool.ofBootMap_sound map kernelEnd)
      fun f hf => absurd hf (hn f)
  refine Call.Meets.bind (Call.adapt_meets (hcreate.mono (fun _ _ => id) fun e _ he => ?_)) ?_
  · exact congrArg KernelError.paging he.1
  · rintro space m₂ ⟨hc, -⟩
    exact absurd hc.taken (hn _)

end PagedKernel.Kernel
