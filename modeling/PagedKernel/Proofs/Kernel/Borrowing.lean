import PagedKernel.Proofs.Host.WellFormed
import PagedKernel.Proofs.Io.Borrowing
import PagedKernel.Proofs.Kernel.Run

/-! Unmapping beside reads in flight. What an unmapping takes down is, page for page, what the
borrow test looks at, so a request is refused as in use exactly when one of its pages is lent,
and a page that is lent stays mapped whatever becomes of a request. -/

namespace PagedKernel

namespace Mmu

variable {v w : Mmu} {va : VirtualAddress} {length : Nat}

/-- The pages that a range meets, and no others, were mapped and are not any more. Outside them
no entry has changed. -/
structure PagesGone (v w : Mmu) (start n : Nat) : Prop where
  inside : start + n ≤ pageCount * pageSize
  gone : ∀ page : Page, page.Meets start n ↔
    v.space.Maps v.machine.ram page ∧ ¬ w.space.Maps w.machine.ram page
  kept : ∀ page : Page, ¬ page.Meets start n →
    w.space.entry w.machine.ram page.base = v.space.entry v.machine.ram page.base

theorem Unassigned.pagesGone (hv : v.Sound) (h0 : length ≠ 0)
    (hw : Unassigned v w va.pageNumber (pagesSpanning (length + va.offset.toNat))) :
    PagesGone v w va.toNat length := by
  have hentry : ∀ page : Page, ¬ page.Meets va.toNat length →
      w.leaf page.index.val = v.leaf page.index.val := by
    intro page hout
    rw [hw.leaf, if_neg (mt (page.meets_iff va h0).mpr hout)]
  refine ⟨?_, fun page => ?_, fun page hout => ?_⟩
  · have hinside := hw.inside
    have hnat := va.toNat_eq
    simp only [pagesSpanning, pageCount_value, pageSize_value] at hinside ⊢
    omega
  · rw [maps_iff hv, maps_iff hw.sound]
    by_cases hin : page.Meets va.toNat length
    · have hpages := (page.meets_iff va h0).mp hin
      rw [hw.leaf, if_pos hpages]
      exact iff_of_true hin ⟨hw.present _ hpages.1 hpages.2, Bool.false_ne_true⟩
    · rw [hentry page hin]
      exact iff_of_false hin fun h => h.2 h.1
  · have hsame := hentry page hout
    rw [← page.base_pageNumber] at hsame
    exact (entry_eq hw.sound _).trans ((congrArg _ hsame).trans (entry_eq hv _).symm)

theorem pagesGone_of_unmap (hv : v.Sound) {events : Array Event} {t : Traced Mmu}
    (hrun : (unmap va length).run ⟨v, events⟩ = .ok (.ok ()) t) :
    PagesGone v t.state va.toNat length := by
  have hmeets : (unmap va length).Meets True v _ _ := unmap_meets hv va length
  obtain ⟨h0, -, hw⟩ := (Op.Meets.post hmeets hrun).1
  exact hw.pagesGone hv h0

end Mmu

namespace Kernel

variable {k : Kernel} {p : Process} {pid : ProcessId} {va : VirtualAddress} {length : Nat}
  {page : Page} {managed : Frame → Prop} {gap : Prop}

/-- A queued read borrows the page from the process. -/
def BorrowedFrom (k : Kernel) (pid : ProcessId) (page : Page) : Prop :=
  ∃ e ∈ k.queue.entries, e.pid = pid ∧ e.read.Borrows page

theorem Inv.borrows_iff (h : Inv managed gap k) (pid : ProcessId) (va : VirtualAddress)
    (length : Nat) : k.queue.borrows pid va length = true ↔
      0 < length ∧ ∃ page, k.BorrowedFrom pid page ∧ page.Meets va.toNat length := by
  have hread : ∀ e ∈ k.queue.entries, e.read.borrows va length = true ↔
      0 < length ∧ ∃ page, e.read.Borrows page ∧ page.Meets va.toNat length :=
    fun e he => (Read.spans_of_fits (h.steady.sits e he).fits).borrows_iff va length
  rw [ReadQueue.borrows, List.any_eq_true]
  constructor
  · rintro ⟨e, he, hb⟩
    rw [Bool.and_eq_true, decide_eq_true_eq, hread e he] at hb
    obtain ⟨hpid, hpos, page, hpage, hmeets⟩ := hb
    exact ⟨hpos, page, ⟨e, he, hpid, hpage⟩, hmeets⟩
  · rintro ⟨hpos, page, ⟨e, he, hpid, hpage⟩, hmeets⟩
    refine ⟨e, he, ?_⟩
    rw [Bool.and_eq_true, decide_eq_true_eq, hread e he]
    exact ⟨hpid, hpos, page, hpage, hmeets⟩

theorem Inv.maps_of_borrowed (h : Inv managed gap k) (hb : k.BorrowedFrom pid page) :
    ∃ p, k.process? pid = some p ∧ p.space.Maps k.machine.ram page := by
  obtain ⟨e, he, rfl, hholds, hmeets⟩ := hb
  obtain ⟨loan, hl⟩ := Option.isSome_iff_exists.mp hholds
  have hsits := h.steady.sits e he
  obtain ⟨u, hu, hbacked⟩ := hsits.backed
  obtain ⟨p, hp, rfl⟩ := users_eq_some hu
  have hfits := hsits.fits hl
  obtain ⟨hle, hlt⟩ := (page.meets_iff _ hfits.count).mp hmeets
  rw [← hfits.span, ← hfits.pages_eq] at hlt
  have hpresent := (hbacked hl (page.index.val - e.read.userBuffer.pageNumber) (by omega)).1
  rw [Nat.add_sub_cancel' hle] at hpresent
  exact ⟨p, hp, (Mmu.maps_iff (h.steady.userSound hu) page).mpr hpresent⟩

/-! ### Refusals -/

theorem unmap_borrowed (hp : k.process? pid = some p)
    (hb : k.queue.borrows pid va length = true) (events : Array Event) :
    (unmap pid va length).run ⟨k, events⟩ =
      .ok (.error (.bufferInUse pid va)) ⟨k, events.push (.kernel (.unmapOverlaps pid va))⟩ := by
  refine (Call.run_bind_ok (requireProcess_run hp events)).trans ?_
  refine (Call.run_get_bind _).trans ?_
  dsimp only
  rw [if_pos hb]
  rfl

theorem borrows_of_bufferInUse {events : Array Event} {u : Traced Kernel}
    (h : (unmap pid va length).run ⟨k, events⟩ = .ok (.error (.bufferInUse pid va)) u) :
    k.queue.borrows pid va length = true := by
  cases hp : k.process? pid with
  | none =>
    have habsent : (unmap pid va length).run ⟨k, events⟩ = _ :=
      Call.run_bind_error (requireProcess_refused hp events)
    rw [habsent] at h
    cases h
  | some p =>
    by_contra hb
    have hpast := (Call.run_bind_ok (requireProcess_run hp events)).symm.trans h
    replace hpast := (Call.run_get_bind _).symm.trans hpast
    dsimp only at hpast
    rw [if_neg hb] at hpast
    obtain ⟨e, he⟩ := Call.error_of_adapt hpast
    cases he

/-! ### What a request does to the pages that are lent -/

variable {t u : Traced Kernel}

theorem Inv.unmap_refused (h : Inv managed gap t.state) {cause : KernelError}
    (hrun : (unmap pid va length).run t = .ok (.error cause) u) : u.state = t.state :=
  (Op.Meets.post (unmap_meets h pid va length) hrun).1

theorem Inv.unmap_answered (h : Inv managed gap t.state)
    (hrun : (unmap pid va length).run t = .ok (.ok ()) u) :
    t.state.queue.borrows pid va length = false ∧ u.state.queue = t.state.queue ∧
      ∃ s s', t.state.space? (some pid) = some s ∧ u.state.space? (some pid) = some s' ∧
        Mmu.PagesGone ⟨t.state.machine, s⟩ ⟨u.state.machine, s'⟩ va.toNat length := by
  obtain ⟨p, w, hp, hu, hb, h0, -, hw⟩ := (Op.Meets.post (unmap_meets h pid va length) hrun).1
  have hs := users_of_process? hp
  have hs' : (t.state.withUser p w).users pid = some w.space := by
    rw [users_withUser hp, Function.update_self]
  rw [hu]
  exact ⟨hb, rfl, p.space, w.space, hs, hs', hw.pagesGone (h.steady.userSound hs) h0⟩

/-- Whatever becomes of a request, a page that is lent stays lent, and mapped as it was. -/
structure StillLent (k k' : Kernel) (pid : ProcessId) (page : Page) : Prop where
  borrowed : k'.BorrowedFrom pid page
  mapped : ∃ s s', k.space? (some pid) = some s ∧ k'.space? (some pid) = some s' ∧
    s.Maps k.machine.ram page ∧ s'.entry k'.machine.ram page.base = s.entry k.machine.ram page.base

theorem Inv.stillLent (h : Inv managed gap t.state) (hb : t.state.BorrowedFrom pid page)
    {answer : Except KernelError Unit} (hrun : (unmap pid va length).run t = .ok answer u) :
    StillLent t.state u.state pid page := by
  obtain ⟨p, hp, hmaps⟩ := h.maps_of_borrowed hb
  have hs : t.state.space? (some pid) = some p.space := users_of_process? hp
  cases answer with
  | error cause =>
    rw [h.unmap_refused hrun]
    exact ⟨hb, p.space, p.space, hs, hs, hmaps, rfl⟩
  | ok =>
    obtain ⟨htest, hqueue, s, s', hspace, hspace', hgone⟩ := h.unmap_answered hrun
    obtain rfl : p.space = s := Option.some.inj (hs.symm.trans hspace)
    have hout : ¬ page.Meets va.toNat length := by
      intro hin
      have htrue := (h.borrows_iff pid va length).mpr ⟨hin.pos, page, hb, hin⟩
      rw [htest] at htrue
      cases htrue
    refine ⟨?_, p.space, s', hs, hspace', hmaps, hgone.kept page hout⟩
    rw [BorrowedFrom, hqueue]
    exact hb

/-- What comes of a request to unmap memory, beside the reads in flight. -/
structure SparesBorrowed (gap : Prop) (t : Traced Kernel) (pid : ProcessId) (va : VirtualAddress)
    (length : Nat) : Prop where
  refused_iff : ((unmap pid va length).run.effect t).1 = .ok (.error (.bufferInUse pid va)) ↔
    0 < length ∧ ∃ page, t.state.BorrowedFrom pid page ∧ page.Meets va.toNat length
  unchanged : ∀ cause u, (unmap pid va length).run t = .ok (.error cause) u → u.state = t.state
  unmapped : ∀ u, (unmap pid va length).run t = .ok (.ok ()) u →
    ∃ s s', t.state.space? (some pid) = some s ∧ u.state.space? (some pid) = some s' ∧
      Mmu.PagesGone ⟨t.state.machine, s⟩ ⟨u.state.machine, s'⟩ va.toNat length
  kept : ∀ answer u, (unmap pid va length).run t = .ok answer u →
    ∀ page, t.state.BorrowedFrom pid page → StillLent t.state u.state pid page
  returns : ¬ gap → ∃ answer u, (unmap pid va length).run t = .ok answer u

theorem Inv.sparesBorrowed (h : Inv managed gap t.state) (pid : ProcessId) (va : VirtualAddress)
    (length : Nat) : SparesBorrowed gap t pid va length where
  refused_iff := by
    obtain ⟨k, events⟩ := t
    constructor
    · intro hrefused
      obtain ⟨u, hrun⟩ := Op.run_of_effect hrefused
      exact (h.borrows_iff pid va length).mp (borrows_of_bufferInUse hrun)
    · intro hlent
      obtain ⟨-, page, hb, -⟩ := id hlent
      obtain ⟨p, hp, -⟩ := h.maps_of_borrowed hb
      rw [Op.effect, unmap_borrowed hp ((h.borrows_iff pid va length).mpr hlent)]
  unchanged _ _ hrun := h.unmap_refused hrun
  unmapped _ hrun := (h.unmap_answered hrun).2.2
  kept _ _ hrun _ hb := h.stillLent hb hrun
  returns hgap := by
    obtain ⟨answer, u, hrun, -⟩ :=
      ((unmap_meets h pid va length).widen hgap).exists_answer t.events
    exact ⟨answer, u, hrun⟩

/-- The borrow test and unmapping agree page for page. The test of a read, however the read was
made and whatever has happened to it since, finds the pages that have a byte of its buffer and a
byte of the range; unmapping takes down the pages that have a byte of the range; and so, along a
run of the kernel, a request is refused as in use exactly when one of its pages is lent to a
queued read, and no request unmaps such a page. -/
theorem borrow_test_matches_unmap :
    (∀ {δ μ : Type} (backend : Backend δ μ) fd user count slot m events r
        (t : Traced (Recorded μ LoanCall)) (s : RecordedWorld δ μ),
      (Read.prepare backend.mapper.recorded fd user count slot).run ⟨⟨m, []⟩, events⟩ =
        .ok (.ok r) t →
      ∀ u, Read.Run backend slot (r, s) u → u.1.TestsPages user count) ∧
    (∀ (v : Mmu) va length events t, v.Sound →
      (Mmu.unmap va length).run ⟨v, events⟩ = .ok (.ok ()) t →
        Mmu.PagesGone v t.state va.toNat length) ∧
    ∀ map kernelEnd m t, Reachable map kernelEnd m t → ∀ pid va length,
      SparesBorrowed (Gap map kernelEnd m) t pid va length :=
  ⟨fun _ _ _ _ _ _ _ _ _ _ hprepare _ hrun => Read.Run.testsPages hprepare hrun,
    fun _ _ _ _ _ hv hrun => Mmu.pagesGone_of_unmap hv hrun,
    fun _ _ _ _ ht pid va length => ht.inv.1.sparesBorrowed pid va length⟩

theorem borrow_test_matches_unmap_reading :
    (∃ r t, (Read.prepare Backend.scripted.mapper.recorded ⟨3⟩ (.ofBits 0x10000ff6) 100 0).run
        ⟨⟨LedgerMapper.State.initial, []⟩, #[]⟩ = .ok (.ok r) t ∧
      r.borrows (.ofBits 0x10001fff) 1 = true ∧ r.borrows (.ofBits 0x10000000) 0 = false ∧
      r.TestsPages (.ofBits 0x10000ff6) 100) ∧
    (∃ v t, SpaceHost.twoPagesSpace = some v ∧ v.Sound ∧
      (Mmu.unmap (.ofBits 4198399) 2).run ⟨v, #[]⟩ = .ok (.ok ()) t ∧
        Mmu.PagesGone v t.state 4198399 2) ∧
    ∃ t, reading = some t ∧ Reachable nineFrames (.ofBits 0) ⟨.arena 10, .empty⟩ t ∧
      t.state.queue.borrows ⟨1⟩ (.ofBits 268435455) maxLength = true ∧
      SparesBorrowed (Gap nineFrames (.ofBits 0) ⟨.arena 10, .empty⟩) t ⟨1⟩ (.ofBits 268435455)
        maxLength := by
  obtain ⟨htests, hgone, hspares⟩ := borrow_test_matches_unmap
  refine ⟨?_, ?_, ?_⟩
  · have hprepare : ∃ r t,
        (Read.prepare Backend.scripted.mapper.recorded ⟨3⟩ (.ofBits 0x10000ff6) 100 0).run
          ⟨⟨LedgerMapper.State.initial, []⟩, #[]⟩ = .ok (.ok r) t ∧
        r.borrows (.ofBits 0x10001fff) 1 = true ∧ r.borrows (.ofBits 0x10000000) 0 = false :=
      ⟨_, _, rfl, by decide +kernel, by decide +kernel⟩
    obtain ⟨r, t, hrun, hlast, hempty⟩ := hprepare
    refine ⟨r, t, hrun, hlast, hempty, ?_⟩
    exact htests _ _ _ _ _ _ _ r t
      ⟨⟨ScriptedDevice.State.initial, []⟩, t.state, Slots.empty.handOut.2⟩ hrun _ .refl
  · have hsome : (SpaceHost.twoPagesSpace.any fun v =>
        ((Mmu.unmap (.ofBits 4198399) 2).answer? v).isSome) = true := by
      decide +kernel
    obtain ⟨v, hv, hanswer⟩ := (Option.any_eq_true _ _).mp hsome
    obtain ⟨⟨_, t⟩, hanswer⟩ := Option.isSome_iff_exists.mp hanswer
    have hrun := Call.run_of_answer? hanswer
    obtain ⟨hsound, -⟩ := SpaceHost.twoPagesSpace_sound hv
    exact ⟨v, t, hv, hsound, hrun, hgone v _ 2 #[] t hsound hrun⟩
  · have hrun : (reading.any fun t =>
        t.state.queue.borrows ⟨1⟩ (.ofBits 268435455) maxLength) = true := by
      simp only [reading, run, List.foldlM_cons, List.foldlM_nil, after, Operation.perform, spawn,
        Process.create_eq]
      decide +kernel
    obtain ⟨t, ht, hborrows⟩ := (Option.any_eq_true _ _).mp hrun
    have hreach : Reachable nineFrames (.ofBits 0) ⟨.arena 10, .empty⟩ t :=
      reachable_iff.mpr ⟨_, ht⟩
    exact ⟨t, ht, hreach, hborrows, hspares _ _ _ t hreach ⟨1⟩ _ _⟩

end Kernel
end PagedKernel
