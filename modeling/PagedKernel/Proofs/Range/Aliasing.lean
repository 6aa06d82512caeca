import PagedKernel.Proofs.Range.Lending
import PagedKernel.Proofs.Range.Removal

/-! Lending is exact. Memory of a source that is all mapped is lent at the least run of the
alias window that is free, as long as the pool has a frame for each table the run misses. The
bytes there are then the bytes of the source, and nothing else has changed. Otherwise there is
one reason for the refusal, and no trace of the request. -/

namespace PagedKernel.Mmu

variable {v w : Mmu} {source : AddressSpace} {user kernel : VirtualAddress} {length n : Nat}
  {frame? : Nat → Option Frame} {events : Array Event}

def Undisturbed (s : AddressSpace) (m m' : Machine) : Prop :=
  (Mmu.mk m' s).link = (Mmu.mk m s).link ∧ (Mmu.mk m' s).leaf = (Mmu.mk m s).leaf

/-- All bytes are mapped in the source, and there is room for them in the window. -/
structure Lendable (source v : Mmu) (user : VirtualAddress) (length : Nat) : Prop where
  fits : user.toNat + length ≤ 4294967296
  mapped : ∀ a : VirtualAddress, user.toNat ≤ a.toNat → a.toNat < user.toNat + length →
    (source.leaf a.pageNumber).isPresent = true
  room : ∃ first, IsLeast (v.windowRuns (pagesTouched user.toMemoryAddress length)) first ∧
    (v.missingTables first (pagesTouched user.toMemoryAddress length)).card ≤
      v.machine.pool.available

/-- What a request to lend has done once it is granted. -/
structure Aliased (source : AddressSpace) (v w : Mmu) (user kernel : VirtualAddress)
    (length : Nat) : Prop where
  offset : kernel.offset = user.offset
  first : IsLeast (v.windowRuns (pagesTouched user.toMemoryAddress length)) kernel.pageNumber
  shared : ∀ i < length, ∃ (a b : VirtualAddress) (pa : PhysicalAddress),
    a.toNat = kernel.toNat + i ∧ b.toNat = user.toNat + i ∧
    w.space.translate w.machine.ram a = .ok (some pa) ∧
    source.translate v.machine.ram b = .ok (some pa)
  /-- Each page of the run borrows, for the kernel to write, the frame at its distance. -/
  pages : ∀ p, kernel.pageNumber ≤ p →
    p < kernel.pageNumber + pagesTouched user.toMemoryAddress length →
    w.space.isAvailable p = false ∧ ∃ f,
      (Mmu.mk v.machine source).frame? (user.pageNumber + (p - kernel.pageNumber)) = some f ∧
      w.leaf p = .ofFrame f (.leaf true false true)
  others : ∀ p, ¬ (kernel.pageNumber ≤ p ∧
      p < kernel.pageNumber + pagesTouched user.toMemoryAddress length) →
    w.leaf p = v.leaf p ∧ w.space.isAvailable p = v.space.isAvailable p
  linked : ∀ slot table, v.table? slot = some table → w.table? slot = some table
  source : Undisturbed source v.machine w.machine
  /-- The pool lost the frames of new tables. -/
  available : ∀ f, v.available f ↔
    w.available f ∨ ∃ slot ∈ newTables v w, w.table? slot = some f
  taken : v.machine.pool.available = w.machine.pool.available + (newTables v w).card

theorem Step.undisturbed (h : Step none v w) (hpages : PagesKept v w)
    (hs : (Mmu.mk v.machine source).Sound)
    (hapart : ∀ f, (Mmu.mk v.machine source).IsStructure f → ¬ v.IsStructure f) :
    Undisturbed source v.machine w.machine := by
  have hwords : ∀ f, (Mmu.mk v.machine source).IsStructure f →
      w.machine.ram.words f = v.machine.ram.words f := fun f hf =>
    h.words_kept hpages (hs.framed.in_use hf) (hapart f hf)
  obtain ⟨hlink, -, hleaf, -⟩ := view_congr (v := ⟨v.machine, source⟩) (w := ⟨w.machine, source⟩)
    rfl (hwords _ (.inl rfl)) fun slot f hf => hwords f (.inr ⟨slot, hf⟩)
  exact ⟨hlink, hleaf⟩

theorem fits_iff : user.toNat + length ≤ 4294967296 ↔
    user.pageNumber + pagesTouched user.toMemoryAddress length ≤ pageCount := by
  have huser := user.toNat_eq
  rw [pageCount_value]
  constructor
  · intro hfit
    have hmax : length + user.offset.toNat ≤ maxLength := by
      simp only [maxLength]
      omega
    have hpages : pagesTouched user.toMemoryAddress length =
        pagesSpanning (length + user.offset.toNat) :=
      congrArg pagesSpanning (saturatingAdd_of_le hmax)
    rw [hpages, pagesSpanning]
    omega
  · intro hfit
    have hle : pagesTouched user.toMemoryAddress length ≤ pageCount := by
      rw [pageCount_value]
      omega
    rw [(pagesTouched_of_le hle).2, pagesSpanning] at hfit
    omega

theorem pagesTouched_ne_zero (h0 : length ≠ 0) :
    pagesTouched user.toMemoryAddress length ≠ 0 := by
  rw [pagesTouched, ne_eq, pagesSpanning_eq_zero_iff, saturatingAdd, maxLength]
  omega

theorem gaps_eq_empty_iff {source : Mmu} (h0 : length ≠ 0)
    (hfit : user.toNat + length ≤ 4294967296) :
    Gaps source.frame? user.pageNumber (pagesTouched user.toMemoryAddress length) = ∅ ↔
      ∀ a : VirtualAddress, user.toNat ≤ a.toNat → a.toNat < user.toNat + length →
        (source.leaf a.pageNumber).isPresent = true := by
  have hpages := (pagesTouched_of_le (Nat.le_trans (Nat.le_add_left _ _) (fits_iff.mp hfit))).2
  have hmem := mem_pages_iff user h0
  rw [← hpages] at hmem
  have hgap : ∀ p, source.frame? p = none ↔ (source.leaf p).isPresent = false := by
    intro p
    rw [frame?]
    cases (source.leaf p).isPresent <;> simp
  constructor
  · intro hnone a hle hlt
    obtain ⟨hpl, hpu⟩ := (hmem a.pageNumber).mpr ⟨a.toNat, hle, hlt, rfl⟩
    refine Bool.not_eq_false _ ▸ fun habsent => ?_
    exact Set.eq_empty_iff_forall_notMem.mp hnone a.pageNumber ⟨hpl, hpu, (hgap _).mpr habsent⟩
  · intro hall
    refine Set.eq_empty_of_forall_notMem fun p hp => ?_
    obtain ⟨hpl, hpu, hnone⟩ := hp
    obtain ⟨n, hle, hlt, rfl⟩ := (hmem p).mp ⟨hpl, hpu⟩
    obtain ⟨a, rfl⟩ := VirtualAddress.exists_toNat (n := n) (by omega)
    have hpresent := hall a hle hlt
    rw [a.pageNumber_eq, (hgap _).mp hnone] at hpresent
    cases hpresent

theorem LendsFrames.lendable {frames : List Frame} (hv : v.Sound) (ht : v.Trimmed)
    (h0 : length ≠ 0) (hlen : frames.length = pagesTouched user.toMemoryAddress length)
    (h : LendsFrames (Mmu.mk v.machine source).frame? v w user kernel frames) :
    Lendable ⟨v.machine, source⟩ v user length := by
  have hfit := fits_iff.mpr (hlen ▸ h.fits)
  have hmapped := gaps_of_known h.known
  have htaken := available_eq_newTables hv h.grown.sound h.grown.step h.grown.tables
    (h.grown.held_page_lent hv)
  rw [h.grown.newTables_eq ht, hlen] at htaken
  rw [hlen] at hmapped
  refine ⟨hfit, (gaps_eq_empty_iff h0 hfit).mp hmapped, kernel.pageNumber, hlen ▸ h.first, ?_⟩
  omega

theorem LendsFrames.aliased {frames : List Frame} (hv : v.Sound)
    (hs : (Mmu.mk v.machine source).Sound)
    (hapart : ∀ f, (Mmu.mk v.machine source).IsStructure f → ¬ v.IsStructure f)
    (hlen : frames.length = pagesTouched user.toMemoryAddress length)
    (h : LendsFrames (Mmu.mk v.machine source).frame? v w user kernel frames) :
    Aliased source v w user kernel length where
  offset := h.offset
  first := hlen ▸ h.first
  shared i hi := by
    have hfits := h.fits
    have hwindow : kernel.pageNumber + frames.length ≤ 983040 := h.window.2
    have hle : pagesTouched user.toMemoryAddress length ≤ pageCount := by omega
    have hpages := (pagesTouched_of_le hle).2
    rw [← hlen, pagesSpanning] at hpages
    rw [pageCount_value] at hfits
    have huser := user.toNat_eq
    have hkernel := kernel.toNat_eq
    have hoffset : kernel.offset.toNat = user.offset.toNat := congrArg UInt32.toNat h.offset
    obtain ⟨a, b, j, ha, hb, hj, hapage, hbpage, hsame⟩ :=
      VirtualAddress.exists_moved (i := i) h.offset (by omega) (by omega)
    have hlt : j < frames.length := by omega
    obtain ⟨⟨f, hf, hleaf⟩, hpresent⟩ := h.grown.mapped a.pageNumber (by omega) (by omega)
    rw [hapage, Nat.add_sub_cancel_left] at hf
    obtain ⟨hmapped, hframe⟩ := frame?_eq_some.mp (h.known j f hf)
    rw [← hbpage] at hmapped hframe
    obtain ⟨pa, -, hto, hfrom⟩ := translate_alike h.grown.sound hs hpresent hmapped
      (by rw [hleaf, hframe]; rfl) hsame
    exact ⟨a, b, pa, ha, hb, hto, hfrom⟩
  pages p hle hlt := by
    rw [← hlen] at hlt
    obtain ⟨⟨f, hf, hleaf⟩, -⟩ := h.grown.mapped p hle hlt
    exact ⟨by rw [h.grown.offered, if_pos ⟨hle, hlt⟩], f, h.known _ f hf, hleaf⟩
  others p hp := by
    rw [← hlen] at hp
    exact ⟨h.grown.leaf p hp, by rw [h.grown.offered, if_neg hp]⟩
  linked := h.grown.tables
  source := h.grown.step.undisturbed h.grown.pages hs hapart
  available := available_iff_newTables hv h.grown.sound h.grown.step h.grown.tables
    (h.grown.held_page_lent hv)
  taken := available_eq_newTables hv h.grown.sound h.grown.step h.grown.tables
    (h.grown.held_page_lent hv)

theorem Lendable.not_refused (h0 : length ≠ 0) (h : Lendable ⟨v.machine, source⟩ v user length)
    (e : AliasError) : ¬ LendRefused (Mmu.mk v.machine source).frame? v user
      (pagesTouched user.toMemoryAddress length) e := by
  have hfits := fits_iff.mp h.fits
  have hmapped := (gaps_eq_empty_iff h0 h.fits).mpr h.mapped
  obtain ⟨first, hfirst, hroom⟩ := h.room
  intro he
  cases he with
  | empty hn => exact pagesTouched_ne_zero h0 hn
  | outside hout => omega
  | notMapped _ hpage => exact Set.notMem_empty _ (hmapped ▸ hpage.1)
  | outOfVirtualSpace _ _ _ hnone => exact Set.notMem_empty _ (hnone ▸ hfirst.1)
  | outOfFrames _ _ _ hfirst' hscarce =>
    rw [hfirst'.unique hfirst] at hscarce
    omega

theorem LendRefused.unique {e e' : AliasError} (h : LendRefused frame? v user n e)
    (h' : LendRefused frame? v user n e') : e = e' := by
  have hgap : ∀ {p}, IsLeast (Gaps frame? user.pageNumber n) p → n ≠ 0 ∧
      Gaps frame? user.pageNumber n ≠ ∅ := by
    intro p hp
    obtain ⟨hle, hlt, -⟩ := hp.1
    exact ⟨by omega, fun hnone => Set.notMem_empty p (hnone ▸ hp.1)⟩
  have hrun : ∀ {p}, IsLeast (v.windowRuns n) p → v.windowRuns n ≠ ∅ :=
    fun hp hnone => Set.notMem_empty _ (hnone ▸ hp.1)
  cases h with
  | empty h0 =>
    cases h' with
    | empty => rfl
    | outside _ hn => exact absurd h0 hn
    | notMapped _ hp => exact absurd h0 (hgap hp).1
    | outOfVirtualSpace hn => exact absurd h0 hn
    | outOfFrames hn => exact absurd h0 hn
  | outside hout hn =>
    cases h' with
    | empty h0 => exact absurd h0 hn
    | outside => rfl
    | notMapped hfit => omega
    | outOfVirtualSpace _ hfit => omega
    | outOfFrames _ hfit => omega
  | @notMapped page hfit hp =>
    cases h' with
    | empty h0 => exact absurd h0 (hgap hp).1
    | outside hout => omega
    | @notMapped page' _ hp' =>
      rw [show page = page' from congrArg Page.mk (Fin.ext (hp.unique hp'))]
    | outOfVirtualSpace _ _ hmapped => exact absurd hmapped (hgap hp).2
    | outOfFrames _ _ hmapped => exact absurd hmapped (hgap hp).2
  | outOfVirtualSpace hn hfit hmapped hnone =>
    cases h' with
    | empty h0 => exact absurd h0 hn
    | outside hout => omega
    | notMapped _ hp => exact absurd hmapped (hgap hp).2
    | outOfVirtualSpace => rfl
    | outOfFrames _ _ _ hfirst => exact absurd hnone (hrun hfirst)
  | outOfFrames hn hfit hmapped hfirst =>
    cases h' with
    | empty h0 => exact absurd h0 hn
    | outside hout => omega
    | notMapped _ hp => exact absurd hmapped (hgap hp).2
    | outOfVirtualSpace _ _ _ hnone => exact absurd hnone (hrun hfirst)
    | outOfFrames => rfl

theorem lend_exact (hv : v.Sound) (ht : v.Trimmed) (hs : (Mmu.mk v.machine source).Sound)
    (hapart : ∀ f, (Mmu.mk v.machine source).IsStructure f → ¬ v.IsStructure f)
    (user : VirtualAddress) (h0 : length ≠ 0) (events : Array Event) :
    (∀ r t, (lend (some source) user length).run ⟨v, events⟩ = .ok r t →
      ((∃ kernel, r = .ok kernel) ↔ Lendable ⟨v.machine, source⟩ v user length) ∧
      (∀ kernel, r = .ok kernel → Aliased source v t.state user kernel length) ∧
      (∀ e, r = .error e ↔ LendRefused (Mmu.mk v.machine source).frame? v user
        (pagesTouched user.toMemoryAddress length) e) ∧
      ∀ e, r = .error e → NoTrace v t.state ∧ Undisturbed source v.machine t.state.machine) ∧
    ∀ fault t, (lend (some source) user length).run ⟨v, events⟩ = .error fault t →
      ∃ f, v.available f ∧ ¬ v.machine.ram.installed f := by
  have hmeets : (lend (some source) user length).Meets
      (∃ f, v.available f ∧ ¬ v.machine.ram.installed f) v _ _ :=
    lend_frames_meets hv ht (fun _ => v.installed_or_missing) hs.finds user length
  refine ⟨fun r t hrun => ?_, fun fault t hrun => Op.Meets.of_fault hmeets hrun⟩
  have hpost := (Op.Meets.post hmeets hrun).1
  cases r with
  | ok kernel =>
    obtain ⟨frames, hlen, hlent⟩ := hpost
    have hlendable := hlent.lendable hv ht h0 hlen
    refine ⟨iff_of_true ⟨kernel, rfl⟩ hlendable, ?_, fun e => ?_, nofun⟩
    · rintro _ ⟨⟩
      exact hlent.aliased hv hs hapart hlen
    · exact iff_of_false nofun (hlendable.not_refused h0 e)
  | error cause =>
    obtain ⟨hrestored, hcause⟩ := hpost
    refine ⟨iff_of_false nofun fun h => h.not_refused h0 cause hcause, nofun, fun e => ⟨?_, ?_⟩,
      fun _ _ => ⟨hrestored.noTrace hv, hrestored.step.undisturbed hrestored.pages hs hapart⟩⟩
    · rintro ⟨⟩
      exact hcause
    · exact fun he => congrArg _ (hcause.unique he)

theorem lend_exact_neighbours : ∃ v source kernel t,
    SpaceHost.neighbours = some (v, source) ∧ v.Sound ∧ v.Trimmed ∧
    (Mmu.mk v.machine source).Sound ∧
    (∀ f, (Mmu.mk v.machine source).IsStructure f → ¬ v.IsStructure f) ∧ 5000 ≠ 0 ∧
    (lend (some source) (.ofBits 4194320) 5000).run ⟨v, #[]⟩ = .ok (.ok kernel) t ∧
    Aliased source v t.state (.ofBits 4194320) kernel 5000 ∧
    kernel.pageNumber / 1024 ∈ newTables v t.state := by
  have hsome : (SpaceHost.neighbours.any fun (v, source) =>
      ((lend (some source) (.ofBits 4194320) 5000).answer? v).any fun (kernel, t) =>
        (v.table? (kernel.pageNumber / 1024)).isNone &&
          (t.state.table? (kernel.pageNumber / 1024)).isSome) = true := by
    decide +kernel
  obtain ⟨⟨v, source⟩, hv, hany⟩ := (Option.any_eq_true _ _).mp hsome
  obtain ⟨⟨kernel, t⟩, hanswer, hnew⟩ := (Option.any_eq_true _ _).mp hany
  simp only [Bool.and_eq_true, Option.isNone_iff_eq_none, Option.isSome_iff_ne_none] at hnew
  obtain ⟨hsound, htrimmed, hsource, hapart⟩ := SpaceHost.neighbours_sound hv
  have hrun := Call.run_of_answer? hanswer
  have hlength : 5000 ≠ 0 := by decide
  obtain ⟨-, haliased, -⟩ :=
    (lend_exact hsound htrimmed hsource hapart (.ofBits 4194320) hlength #[]).1 _ t hrun
  exact ⟨v, source, kernel, t, hv, hsound, htrimmed, hsource, hapart, hlength, hrun,
    haliased kernel rfl, mem_newTables_iff.mpr hnew⟩

end PagedKernel.Mmu
