import PagedKernel.Proofs.Kernel.Run

/-! The layout of the kernel space. Outside the alias window a page maps the frame of its
own number, and all managed frames are mapped there; inside it the pages are those lent to
queued reads. Boot and requests for device memory map nothing inside the window. -/

namespace PagedKernel

namespace Mmu

/-- The page lies in the range that user buffers are lent into. -/
def InWindow (p : Nat) : Prop :=
  aliasWindow.1 ≤ p ∧ p < aliasWindow.2

theorem inWindow_iff {p : Nat} : InWindow p ↔ 65536 ≤ p ∧ p < 983040 := .rfl

end Mmu

def Lends (es : List QueueEntry) (p : Nat) : Prop :=
  ∃ e ∈ es, ∃ loan, e.read.loan = some loan ∧ loan.Covers p

/-- A present entry of the kernel space, and where it may stand. -/
structure Placed (es : List QueueEntry) (p : Nat) (e : TableEntry) : Prop where
  kernelOnly : e.isUser = false
  own : ¬ Mmu.InWindow p → e.frame.index.val = p
  lent : Mmu.InWindow p → Lends es p

/-- Every present entry stands where it may, and every managed frame is mapped. -/
structure Laid (managed : Frame → Prop) (v : Mmu) (es : List QueueEntry) : Prop where
  placed : ∀ p, (v.leaf p).isPresent = true → Placed es p (v.leaf p)
  identity : ∀ f, managed f →
    ¬ Mmu.InWindow f.index.val ∧ (v.leaf f.index.val).isPresent = true

variable {v w : Mmu} {es es' kept : List QueueEntry} {p : Nat} {managed : Frame → Prop}
  {gap : Prop}

/-- The layout is kept when entries are old ones or well placed, and none goes away outside
the window. -/
theorem Laid.step (h : Laid managed v es)
    (hnew : ∀ p, (w.leaf p).isPresent = true →
      w.leaf p = v.leaf p ∧ (Lends es p → Lends es' p) ∨ Placed es' p (w.leaf p))
    (hkept : ∀ p, ¬ Mmu.InWindow p → (v.leaf p).isPresent = true → (w.leaf p).isPresent = true) :
    Laid managed w es' := by
  refine ⟨fun p hp => ?_, fun f hf => ?_⟩
  · rcases hnew p hp with ⟨hsame, hlends⟩ | hplaced
    · rw [hsame] at hp ⊢
      have hold := h.placed p hp
      exact ⟨hold.kernelOnly, hold.own, fun hin => hlends (hold.lent hin)⟩
    · exact hplaced
  · obtain ⟨hout, hpresent⟩ := h.identity f hf
    exact ⟨hout, hkept _ hout hpresent⟩

theorem Laid.congr (h : Laid managed v es) (hl : w.leaf = v.leaf) : Laid managed w es :=
  h.step (fun _ _ => .inl ⟨by rw [hl], id⟩) fun _ _ hp => by rwa [hl]

theorem Laid.identified {inside : Nat → Prop} {writable : Bool} (h : Laid managed v es)
    (hw : Mmu.Identified inside writable v w) (hi : ∀ p, inside p → ¬ Mmu.InWindow p) :
    Laid managed w es := by
  refine h.step ?_ ?_
  · intro p hp
    rcases hw.page p with ⟨hsame, -⟩ | ⟨hin, -, -, f, hf, hnew⟩
    · exact .inl ⟨hsame, id⟩
    · rw [hnew]
      exact .inr ⟨rfl, fun _ => hf, fun hwin => absurd hwin (hi p hin)⟩
  · intro p _ hp
    rw [hw.kept hp]
    exact hp

theorem Laid.prepared {u : Mmu} {pid : ProcessId} {r : Read} (h : Laid managed v es)
    (hr : r.Prepared u v w) : Laid managed w (es ++ [⟨pid, r⟩]) := by
  have hmore : ∀ {p}, Lends es p → Lends (es ++ [⟨pid, r⟩]) p :=
    fun ⟨e, he, hl⟩ => ⟨e, List.mem_append_left _ he, hl⟩
  cases hl : r.loan with
  | none =>
    obtain ⟨-, rfl⟩ := hr.unlent hl
    exact h.step (fun _ _ => .inl ⟨rfl, hmore⟩) fun _ _ => id
  | some loan =>
    obtain ⟨hfits, hlent⟩ := hr.lent hl
    have hin : ∀ {p}, loan.Covers p → Mmu.InWindow p := fun hp =>
      ⟨Nat.le_trans hfits.window.1 hp.1, Nat.lt_of_lt_of_le hp.2 hfits.window.2⟩
    refine h.step ?_ ?_
    · intro p hp
      by_cases hc : loan.Covers p
      · obtain ⟨⟨-, hnew⟩, -⟩ := hlent.grown.mapped p hc.1 hc.2
        refine .inr ⟨by rw [hnew]; rfl, fun hout => absurd (hin hc) hout, fun _ => ?_⟩
        exact ⟨⟨pid, r⟩, List.mem_append_right _ (List.mem_singleton_self _), loan, hl, hc⟩
      · exact .inl ⟨hlent.grown.leaf p hc, hmore⟩
    · intro p hout hp
      rw [hlent.grown.leaf p fun hc => hout (hin hc)]
      exact hp

theorem lends_cons {e : QueueEntry} : Lends (e :: es) p ↔
    (∃ loan, e.read.loan = some loan ∧ loan.Covers p) ∨ Lends es p := by
  simp [Lends]

theorem Returned.leaf {loan : Option Loan} (h : Returned v loan w) (p : Nat) :
    (∃ l, loan = some l ∧ l.Covers p) ∧ w.leaf p = .zero ∨
      (¬ ∃ l, loan = some l ∧ l.Covers p) ∧ w.leaf p = v.leaf p := by
  cases loan with
  | none =>
    cases h
    exact .inr ⟨nofun, rfl⟩
  | some loan =>
    have hu : Mmu.Unassigned v w loan.base.pageNumber loan.pages := h
    rw [hu.leaf]
    by_cases hp : loan.Covers p
    · exact .inl ⟨⟨loan, rfl, hp⟩, if_pos hp⟩
    · refine .inr ⟨?_, if_neg hp⟩
      rintro ⟨l, he, hl⟩
      exact hp (Option.some.inj he ▸ hl)

theorem ReadQueue.Pass.leaf {slots slots' : Slots} {ended : List Completion}
    (h : Pass (fun r v => Returned v r.loan) v slots es ended kept w slots') (p : Nat) :
    w.leaf p = v.leaf p ∧ (Lends es p → Lends kept p) ∨ w.leaf p = .zero ∧ Lends es p := by
  induction h with
  | done => exact .inl ⟨rfl, id⟩
  | keep _ _ ih =>
    simp only [lends_cons]
    rcases ih with ⟨hsame, hlends⟩ | ⟨hzero, hlends⟩
    · exact .inl ⟨hsame, Or.imp id hlends⟩
    · exact .inr ⟨hzero, .inr hlends⟩
  | finish _ hback _ ih =>
    simp only [lends_cons]
    rcases Returned.leaf hback p with ⟨hl, hgone⟩ | ⟨hl, hleft⟩
    · refine .inr ⟨?_, .inl hl⟩
      rcases ih with ⟨hsame, -⟩ | ⟨hzero, -⟩
      · exact hsame.trans hgone
      · exact hzero
    · rcases ih with ⟨hsame, hlends⟩ | ⟨hzero, hlends⟩
      · exact .inl ⟨hsame.trans hleft, fun h => hlends (h.resolve_left hl)⟩
      · exact .inr ⟨hzero, .inr hlends⟩

theorem Laid.passed {slots slots' : Slots} {ended : List Completion} (h : Laid managed v es)
    (hw : ReadQueue.Pass (fun r v => Returned v r.loan) v slots es ended kept w slots')
    (hin : ∀ p, Lends es p → Mmu.InWindow p) : Laid managed w kept := by
  refine h.step ?_ ?_
  · intro p hp
    rcases hw.leaf p with hsame | ⟨hzero, -⟩
    · exact .inl hsame
    · rw [hzero] at hp
      cases hp
  · intro p hout hp
    rcases hw.leaf p with ⟨hsame, -⟩ | ⟨-, hlends⟩
    · rwa [hsame]
    · exact absurd (hin p hlends) hout

namespace Kernel

variable {k k' : Kernel} {map : BootMap} {kernelEnd : PhysicalAddress} {m : Machine}
  {t : Traced Kernel}

theorem Inv.lends (h : Inv managed gap k) (hp : Lends k.queue.entries p) :
    Mmu.InWindow p ∧ (k.mmu.leaf p).isPresent = true := by
  obtain ⟨e, he, loan, hl, hc⟩ := hp
  have hsits := h.steady.sits e he
  have hwindow := (hsits.fits hl).window
  obtain ⟨_, -, hback⟩ := hsits.backed
  exact ⟨⟨Nat.le_trans hwindow.1 hc.1, Nat.lt_of_lt_of_le hc.2 hwindow.2⟩, (hback hl).present hc⟩

theorem DevicePage.outside {base : PhysicalAddress} {size : Nat} (h : DevicePage base size p) :
    ¬ Mmu.InWindow p := by
  obtain ⟨hdev, hin⟩ := h
  obtain ⟨hfirst, hlast⟩ := hin.bounds
  rw [Mmu.inWindow_iff]
  rcases Bool.or_eq_true_iff.mp hdev with hlow | hhigh
  · have hend : saturatingAdd base.toNat size ≤ 268435456 := of_decide_eq_true hlow
    simp only [saturatingAdd, maxLength] at hend
    omega
  · have hstart : 4026531840 ≤ base.toNat := of_decide_eq_true hhigh
    omega

theorem Outcome.laid {op : Operation} {answered : Bool} (h : Inv managed gap k)
    (hl : Laid managed k.mmu k.queue.entries) (ho : Outcome managed gap k op answered k') :
    Laid managed k'.mmu k'.queue.entries := by
  induction ho with
  | refused op => exact hl
  | deviceMapped hw => exact hl.identified hw fun _ => DevicePage.outside
  | spawned hs =>
    obtain ⟨hnone, -⟩ := hs.users h
    rw [hs.kernel]
    exact hl.congr (h.steady.userCreated hnone hs.created).kernel.view.2.2.1
  | mapped hp hw =>
    exact hl.congr (h.steady.userGrown (users_of_process? hp) hw.grown).kernel.view.2.2.1
  | mapUndone hp hw =>
    exact hl.congr (h.steady.userRestored (users_of_process? hp) hw).kernel.view.2.2.1
  | unmapped hp hb h0 _ hw =>
    exact hl.congr (h.steady.userUnassigned (users_of_process? hp) hw
      (not_borrowed h hb h0)).kernel.view.2.2.1
  | queued hp hr hs => exact hl.prepared hr
  | lendUndone hw => exact hl.congr hw.leaf
  | @ended _ k' p v hp he =>
    obtain ⟨_, hpassed, -⟩ := he.passed
    rw [mmu, he.space]
    exact (hl.passed hpassed fun _ hp => (h.lends hp).1).congr (he.untouched v.space).view.2.2.1
  | @ticked _ _ _ _ completions k₁ hp =>
    have hsame := wakeAndPark_reschedules completions k₁
    rw [hsame.mmu, hsame.queue]
    exact hl.passed hp.passed fun _ hp => (h.lends hp).1
  | called _ _ _ _ ih => exact ih

theorem Booted.kernelEnd_lt (h : Booted map kernelEnd gap k) :
    kernelEnd.toNat < MemoryLayout.kernelWindowEnd :=
  kernelEnd_lt_of_managed (h.inv.steady.managed_of_covers (o := none) rfl
    ⟨some .directory, rfl⟩)

theorem Booted.outside (h : Booted map kernelEnd gap k) (hp : BootPage map kernelEnd p) :
    ¬ Mmu.InWindow p := by
  have hlt := lt_of_bootPage (Nat.le_of_lt h.kernelEnd_lt) hp
  simp only [MemoryLayout.kernelWindowPages] at hlt
  rw [Mmu.inWindow_iff]
  omega

theorem Booted.laid (h : Booted map kernelEnd gap k) :
    Laid (Managed map kernelEnd) k.mmu k.queue.entries := by
  obtain ⟨v, hblank, hw⟩ := h.identified
  refine ⟨?_, fun f hf => ?_⟩
  · intro p hp
    rcases hw.page p with ⟨hsame, -⟩ | ⟨hin, -, -, f, hf, hnew⟩
    · rw [hsame, hblank] at hp
      cases hp
    · rw [hnew]
      exact ⟨rfl, fun _ => hf, fun hwin => absurd hwin (h.outside hin)⟩
  · have hboot := bootPage_of_managed hf
    exact ⟨h.outside hboot, (h.present _ hboot).1⟩

theorem Reachable.laid (h : Reachable map kernelEnd m t) :
    Laid (Managed map kernelEnd) t.state.mmu t.state.queue.entries :=
  h.preserved (fun hbooted => hbooted.laid) fun hinv hl ho => ho.laid hinv hl

/-! The layout as lookups show it -/

def Maps (k : Kernel) (page : Page) (e : TableEntry) : Prop :=
  k.space.entry k.machine.ram page.base = .ok e ∧ e.isPresent = true

/-- How the kernel space is laid out. -/
structure Layout (map : BootMap) (kernelEnd : PhysicalAddress) (k : Kernel) : Prop where
  answers : ∀ page : Page, ∃ e, k.space.entry k.machine.ram page.base = .ok e
  borrowed : ∀ {page e}, k.Maps page e → e.isBorrowed = true ∧ e.isUser = false
  null : ∀ {page e}, k.Maps page e → page.index.val ≠ 0
  own : ∀ {page e}, k.Maps page e → ¬ Mmu.InWindow page.index.val → e.frame.index = page.index
  lent : ∀ page : Page, Mmu.InWindow page.index.val →
    ((∃ e, k.Maps page e) ↔ Lends k.queue.entries page.index.val)
  spans : ∀ {p}, Lends k.queue.entries p → Mmu.InWindow p
  /-- The pool hands out managed frames, and those are reached at their own addresses. -/
  pool : ∀ {f}, k.machine.pool.isAvailable f = true → Managed map kernelEnd f
  identity : ∀ {f}, Managed map kernelEnd f → f.index.val < MemoryLayout.kernelWindowPages ∧
    ∀ va : VirtualAddress, va.page.index = f.index →
      k.space.translate k.machine.ram va = .ok (some (.ofBits va.bits))

theorem maps_iff (h : Inv managed gap k) {page : Page} {e : TableEntry} :
    k.Maps page e ↔ k.mmu.leaf page.index.val = e ∧ e.isPresent = true := by
  have he : k.space.entry k.machine.ram page.base = .ok (k.mmu.leaf page.base.pageNumber) :=
    Mmu.entry_eq h.steady.sound page.base
  rw [Maps, he, Page.base_pageNumber, Except.ok.injEq]

theorem translate_own (h : Inv managed gap k) {va : VirtualAddress}
    (hp : (k.mmu.leaf va.pageNumber).isPresent = true)
    (hframe : (k.mmu.leaf va.pageNumber).frame.index.val = va.pageNumber) :
    k.space.translate k.machine.ram va = .ok (some (.ofBits va.bits)) := by
  obtain ⟨pa, hjoin, -, htranslate⟩ := Mmu.translate_of_present h.steady.sound va hp
  have hown : (k.mmu.leaf va.pageNumber).frame = (PhysicalAddress.ofBits va.bits).frame :=
    FramePool.index_eq_iff.mp hframe
  have hsame := Frame.join_frame_offset (.ofBits va.bits)
  rw [hown] at hjoin
  rw [← Except.ok.inj (hjoin.symm.trans hsame)]
  exact htranslate

theorem Inv.layout (h : Inv (Managed map kernelEnd) gap k)
    (hl : Laid (Managed map kernelEnd) k.mmu k.queue.entries) : k.Layout map kernelEnd where
  answers page := ⟨_, Mmu.entry_eq h.steady.sound page.base⟩
  borrowed hm := by
    obtain ⟨rfl, hp⟩ := (maps_iff h).mp hm
    exact ⟨h.steady.borrowed hp, (hl.placed _ hp).kernelOnly⟩
  null hm h0 := by
    obtain ⟨rfl, hp⟩ := (maps_iff h).mp hm
    rw [h0, h.steady.sound.null.2] at hp
    cases hp
  own hm hout := by
    obtain ⟨rfl, hp⟩ := (maps_iff h).mp hm
    exact Fin.ext ((hl.placed _ hp).own hout)
  lent page hin := by
    simp only [maps_iff h, exists_eq_left']
    exact ⟨fun hp => (hl.placed _ hp).lent hin, fun hp => (h.lends hp).2⟩
  spans hp := (h.lends hp).1
  pool hf := (h.steady.custody.managed _).mpr (.inl hf)
  identity {f} hf := by
    obtain ⟨hout, hp⟩ := hl.identity f hf
    refine ⟨lt_of_managed hf, ?_⟩
    intro va hva
    have hpage : va.pageNumber = f.index.val := congrArg Fin.val hva
    refine translate_own h (by rwa [hpage]) ?_
    rw [hpage]
    exact (hl.placed _ hp).own hout

/-- The kernel space is laid out as planned: right after booting nothing is mapped in the
window, all along a run the layout holds, and requests for device memory never map, or
unmap, a page of the window. With an image that reaches past the low window booting fails:
it is refused, unless the count of frames left out overflows before. -/
theorem kernel_space_layout (map : BootMap) (kernelEnd : PhysicalAddress) (m : Machine) :
    (∀ space u, (boot map kernelEnd).run ⟨m, #[]⟩ = .ok (.ok space) u →
      ∀ page : Page, Mmu.InWindow page.index.val → ∀ e, ¬ (ofBoot u.state space).Maps page e) ∧
    (∀ t, Reachable map kernelEnd m t → t.state.Layout map kernelEnd ∧
      ∀ base size answer u, (mapDevice base size).run t = .ok answer u →
        ∀ page : Page, Mmu.InWindow page.index.val →
          ∀ e, u.state.Maps page e ↔ t.state.Maps page e) ∧
    (MemoryLayout.kernelWindowEnd ≤ kernelEnd.toNat →
      ∃ u, (boot map kernelEnd).run ⟨m, #[]⟩ = .ok (.error (.paging .outOfFrames)) u ∨
        Overfull map kernelEnd ∧ (boot map kernelEnd).run ⟨m, #[]⟩ = .error .addOverflow u) := by
  refine ⟨?_, ?_, ?_⟩
  · rintro space ⟨m', events⟩ hrun page hin e hm
    have ht : Reachable map kernelEnd m ⟨ofBoot m' space, events⟩ := .boot hrun
    obtain ⟨_, hq, -⟩ := ((ht.inv.1.layout ht.laid).lent page hin).mp ⟨e, hm⟩
    cases hq
  · intro t ht
    have hinv := ht.inv.1
    refine ⟨hinv.layout ht.laid, ?_⟩
    intro base size answer u hrun page hin e
    have hstep := (Op.Meets.post (mapDevice_meets hinv base size) hrun).1
    have hu := (ht.step (.mapDevice base size) (perform_of_attempt (isOk_of_run hrun))).inv.1
    obtain ⟨w, hw, hk⟩ : ∃ w, Mmu.Identified (DevicePage base size) true t.state.mmu w ∧
        u.state = t.state.withMmu w := by
      cases answer <;> exact hstep
    have hleaf : u.state.mmu.leaf page.index.val = t.state.mmu.leaf page.index.val := by
      rw [hk]
      rcases hw.page page.index.val with ⟨hsame, -⟩ | ⟨hpage, -⟩
      · exact hsame
      · exact absurd hin hpage.outside
    rw [maps_iff hinv, maps_iff hu, hleaf]
  · intro hend
    have hnone : ∀ f, ¬ Managed map kernelEnd f := by
      intro f hf
      have hlt := kernelEnd_lt_of_managed hf
      omega
    by_cases hover : Overfull map kernelEnd
    · exact ⟨_, .inr ⟨hover, boot_of_overfull hover m #[]⟩⟩
    · have hrefused := (boot_refused hnone m).widen hover
      obtain ⟨answer, u, hrun, hanswer⟩ := Op.Meets.exists_answer hrefused #[]
      cases answer with
      | ok space => exact hanswer.elim
      | error e =>
        obtain rfl : e = .paging .outOfFrames := hanswer
        exact ⟨u, .inl hrun⟩

theorem kernel_space_layout_reading : ∃ t, reading = some t ∧ t.state.queue.entries ≠ [] ∧
    t.state.Layout nineFrames (.ofBits 0) ∧
    ∃ u, (boot nineFrames (.ofBits 268435456)).run ⟨⟨.arena 10, .empty⟩, #[]⟩ =
      .ok (.error (.paging .outOfFrames)) u := by
  obtain ⟨t, ht, hreading, ⟨e, he, -⟩, -⟩ := reading_in_flight
  have hrun := (kernel_space_layout nineFrames (.ofBits 0) ⟨.arena 10, .empty⟩).2.1 t ht
  have hboot := kernel_space_layout nineFrames (.ofBits 268435456) ⟨.arena 10, .empty⟩
  refine ⟨t, hreading, List.ne_nil_of_mem he, hrun.1, ?_⟩
  obtain ⟨u, hrefused | ⟨hover, -⟩⟩ := hboot.2.2 (by decide)
  · exact ⟨u, hrefused⟩
  · exact absurd (by decide) hover

end Kernel

end PagedKernel
