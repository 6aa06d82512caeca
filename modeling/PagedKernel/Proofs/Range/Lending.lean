import PagedKernel.Proofs.Range.Fresh
import PagedKernel.Range.Lending

/-! Lending pages of one space to another. The frames are looked up first; then
the whole run is mapped a second time, as borrowed pages, or nothing is. -/

namespace PagedKernel.Mmu

variable {v w x : Mmu} {gap : Prop} {f : Frame} {first start n : Nat} {source : AddressSpace}

def lentFlags : EntryBits :=
  .leaf true false true

theorem translateIn_gives (source : AddressSpace) {va : VirtualAddress}
    {pa : Option PhysicalAddress} (h : source.translate v.machine.ram va = .ok pa) :
    (translateIn source va).Gives v pa v :=
  Op.inspect_gives h

def frame? (v : Mmu) (page : Nat) : Option Frame :=
  if (v.leaf page).isPresent then some (v.leaf page).frame else none

theorem frame?_eq_some {page : Nat} : v.frame? page = some f ↔
    (v.leaf page).isPresent = true ∧ (v.leaf page).frame = f := by
  rw [frame?]
  split <;> simp [*]

/-- Which frames a source answers with when it is asked for its pages one by one. -/
def Finds (gap : Prop) (source : AddressSpace) (v : Mmu) (frame? : Nat → Option Frame) : Prop :=
  ∀ page : Page, (translateIn source page.base).Meets gap v fun pa? w =>
    w = v ∧ pa?.map PhysicalAddress.frame = frame? page.index.val

theorem exists_finds (source : AddressSpace) (v : Mmu) : ∃ frame?, Finds True source v frame? := by
  refine ⟨fun i => if h : i < pageCount then
    match source.translate v.machine.ram (Page.mk ⟨i, h⟩).base with
    | .ok pa? => pa?.map PhysicalAddress.frame
    | .error _ => none
    else none, fun page => Op.inspect_meets (fun pa? h => ⟨rfl, ?_⟩) trivial⟩
  dsimp only
  rw [dif_pos page.index.isLt, h]

theorem Sound.finds (hs : (Mmu.mk v.machine source).Sound) :
    Finds gap source v (Mmu.mk v.machine source).frame? := by
  intro page
  have hnumber := page.base_pageNumber
  rw [← hnumber]
  cases hp : ((Mmu.mk v.machine source).leaf page.base.pageNumber).isPresent with
  | false =>
    have ht : source.translate v.machine.ram page.base = .ok none := translate_of_absent hs _ hp
    refine (translateIn_gives source ht).meets ⟨rfl, ?_⟩
    rw [frame?, if_neg (Bool.eq_false_iff.mp hp), Option.map_none]
  | true =>
    obtain ⟨pa, -, hframe, ht⟩ := translate_of_present hs _ hp
    replace ht : source.translate v.machine.ram page.base = .ok (some pa) := ht
    refine (translateIn_gives source ht).meets ⟨rfl, ?_⟩
    rw [frame?, if_pos hp, Option.map_some, hframe]

/-- The pages from `start` on, `n` of them, that have no frame behind them. -/
def Gaps (frame? : Nat → Option Frame) (start n : Nat) : Set Nat :=
  {p | start ≤ p ∧ p < start + n ∧ frame? p = none}

theorem gaps_of_known {frame? : Nat → Option Frame} {frames : List Frame}
    (h : ∀ i f, frames[i]? = some f → frame? (start + i) = some f) :
    Gaps frame? start frames.length = ∅ := by
  refine Set.eq_empty_of_forall_notMem fun p ⟨hle, hlt, hnone⟩ => ?_
  have hframe := h (p - start) _ (List.getElem?_eq_getElem (by omega))
  rw [Nat.add_sub_cancel' hle, hnone] at hframe
  cases hframe

theorem framesOf_meets {frame? : Nat → Option Frame} (hfind : Finds gap source v frame?)
    (h : start + n ≤ pageCount) :
    (framesOf source start n).Meets gap v
      (fun frames w => w = v ∧ frames.length = n ∧
        ∀ i f, frames[i]? = some f → frame? (start + i) = some f)
      fun e w => w = v ∧ ∃ page : Page, e = .notMapped page.base ∧
        IsLeast (Gaps frame? start n) page.index.val := by
  induction n generalizing start with
  | zero => exact Call.pure_meets ⟨rfl, rfl, nofun⟩
  | succ n ih =>
    have hstart : start < pageCount := by omega
    have hrest : start + 1 + n ≤ pageCount := by omega
    unfold framesOf
    refine (Op.ofExcept_gives (Page.ofIndex_eq_ok hstart)).lift_bind ?_
    refine Call.lift_bind_meets (hfind _) ?_
    rintro pa? w ⟨rfl, hpa⟩
    cases pa? with
    | none =>
      refine Call.throw_meets ⟨rfl, Page.mk ⟨start, hstart⟩, rfl, ⟨Nat.le_refl _, ?_, hpa.symm⟩, ?_⟩
      · change start < start + (n + 1)
        omega
      · exact fun p hp => hp.1
    | some pa =>
      replace hpa : frame? start = some pa.frame := hpa.symm
      refine ((ih hrest).mono (fun _ _ => id) ?_).bind ?_
      · rintro e w ⟨rfl, page, rfl, ⟨hle, hlt, hnone⟩, hleast⟩
        refine ⟨rfl, page, rfl, ⟨by omega, by omega, hnone⟩, ?_⟩
        rintro p ⟨hpl, hpu, hpn⟩
        have hne : p ≠ start := by
          rintro rfl
          exact Option.some_ne_none _ (hpa.symm.trans hpn)
        exact hleast ⟨by omega, by omega, hpn⟩
      · rintro frames w ⟨rfl, hlen, hall⟩
        refine Call.pure_meets ⟨rfl, by rw [List.length_cons, hlen], ?_⟩
        intro i f hi
        cases i with
        | zero =>
          rw [List.getElem?_cons_zero] at hi
          exact hpa.trans hi
        | succ i =>
          rw [List.getElem?_cons_succ] at hi
          rw [show start + (i + 1) = start + 1 + i by omega]
          exact hall i f hi

def LentEntry (first : Nat) (frames : List Frame) (p : Nat) (e : TableEntry) : Prop :=
  ∃ f, frames[p - first]? = some f ∧ e = .ofFrame f lentFlags

theorem Assigned.lent {frames : List Frame} {mapped : Nat}
    (hf : frames[mapped]? = some f) (ho : v.space.isAvailable (first + mapped) = true)
    (h : Assigned v w (first + mapped) (.ofFrame f lentFlags)) :
    Grown false (LentEntry first frames) v w (first + mapped) 1 where
  sound := h.sound
  step := h.step
  before p hle hlt := by
    rw [show p = first + mapped by omega]
    exact ho
  mapped p hle hlt := by
    have hp : p = first + mapped := by omega
    rw [h.leaf, if_pos hp]
    refine ⟨⟨f, ?_, rfl⟩, rfl⟩
    rw [hp, Nat.add_sub_cancel_left]
    exact hf
  leaf p hp := by rw [h.leaf, if_neg (by omega)]
  tables := h.tables
  trimmed := h.trimmed rfl
  offered p := by
    rw [h.offered]
    exact if_congr (by omega) rfl rfl
  uniform := h.uniform
  pages := h.pages

theorem Grown.held_page_lent {frames : List Frame} (hv : v.Sound)
    (h : Grown false (LentEntry start frames) v w first n) (p : Nat) :
    w.held (.page p) = v.held (.page p) := by
  by_cases hp : first ≤ p ∧ p < first + n
  · obtain ⟨⟨f, -, hf⟩, -⟩ := h.mapped p hp.1 hp.2
    rw [h.held_page_before hv hp.1 hp.2, held, hf]
    rfl
  · simp only [held, h.leaf p hp]

theorem lendPage_meets (hv : v.Sound) (hr : ∀ f, v.available f → v.machine.ram.installed f ∨ gap)
    {frames : List Frame} {mapped : Nat} (hf : frames[mapped]? = some f)
    (ho : v.space.isAvailable (first + mapped) = true) (hlt : first + mapped < pageCount) :
    Call.Meets gap ((assignBorrowed f.base (Page.mk ⟨first + mapped, hlt⟩).base true).adapt
        AliasError.paging) v
      (fun _ w => Grown false (LentEntry first frames) v w (first + mapped) 1)
      fun e w => w = v ∧ e = .paging .outOfFrames ∧ v.table? ((first + mapped) / 1024) = none ∧
        ∀ g, ¬ v.available g := by
  have hrun := assign_meets hv hr f.base (Page.mk ⟨first + mapped, hlt⟩).base lentFlags nofun
  rw [Frame.base_frame, Page.base_pageNumber] at hrun
  refine Call.adapt_meets (hrun.mono (fun _ _ hw => hw.lent hf ho) ?_)
  rintro e w ⟨rfl, he⟩
  cases he with
  | nullPage h =>
    rw [Page.base_pageNumber] at h
    change first + mapped = 0 at h
    rw [h, hv.null.1] at ho
    cases ho
  | alreadyMapped _ h =>
    rw [Page.base_pageNumber, hv.offered ho] at h
    cases h
  | outOfFrames _ _ ht ha =>
    rw [Page.base_pageNumber] at ht
    exact ⟨rfl, rfl, ht, ha⟩

theorem lendFrames_meets (hv : v.Sound) (ht : v.Trimmed)
    (hr : ∀ f, v.available f → v.machine.ram.installed f ∨ gap)
    {frames rest : List Frame} {mapped : Nat} (hm : mapped ≤ frames.length)
    (hrest : frames.drop mapped = rest)
    (h : Grown false (LentEntry first frames) v w first mapped)
    (ho : v.space.OffersRun first frames.length) :
    (lendFrames first mapped rest).Meets gap w
      (fun _ x => Grown false (LentEntry first frames) v x first frames.length)
      fun e x => Restored false v x ∧ e = .paging .outOfFrames ∧
        v.machine.pool.available < (v.missingTables first frames.length).card := by
  induction rest generalizing w mapped with
  | nil =>
    have hle : frames.length ≤ mapped := List.drop_eq_nil_iff.mp hrest
    rw [Nat.le_antisymm hle hm]
    exact Call.pure_meets h
  | cons f rest ih =>
    have hf : frames[mapped]? = some f := by
      rw [← Nat.add_zero mapped, ← List.getElem?_drop, hrest, List.getElem?_cons_zero]
    have hmapped : mapped < frames.length := (List.getElem?_eq_some_iff.mp hf).1
    have hoffer : v.space.isAvailable (first + mapped) = true := ho _ (by omega) (by omega)
    have hlt : first + mapped < pageCount := AddressSpace.lt_of_isAvailable hoffer
    have hoffer' : w.space.isAvailable (first + mapped) = true := by
      rw [h.offered, if_neg (by omega)]
      exact hoffer
    have hreach : ∀ g, w.available g → w.machine.ram.installed g ∨ gap := by
      intro g hg
      rw [h.step.installed]
      exact hr g (h.available_before hv hg)
    unfold lendFrames
    refine (Op.ofExcept_gives (Page.ofIndex_eq_ok hlt)).lift_bind ?_
    have hone := lendPage_meets h.sound hreach hf hoffer' hlt
    refine Call.Meets.bind (m := fun _ x => Grown false (LentEntry first frames) v x first
      (mapped + 1)) (Call.tryCatch_meets (hone.mono (fun _ _ => h.trans) fun _ _ => id) ?_) ?_
    · rintro e x ⟨rfl, rfl, htable, hnone⟩
      -- what was paid for so far was less than what the whole run asks for
      have hscarce : v.machine.pool.available < (v.missingTables first frames.length).card := by
        refine available_lt_of_unlinked hv h.sound h.step h.tables (h.held_page_lent hv) hnone
          ?_ (mem_missingTables_iff.mpr ⟨⟨_, Nat.le_add_right _ _, by omega, rfl⟩, ?_⟩) htable
        · rw [h.newTables_eq ht]
          exact v.missingTables_mono first hm
        · exact ((h.table?_eq_none_iff ht).mp htable).1
      refine Call.lift_bind_meets (rollback_meets hv ht h) ?_
      exact fun _ y hy => Call.throw_meets ⟨hy, rfl, hscarce⟩
    · intro _ x hx
      refine ih hmapped ?_ hx
      rw [← List.drop_drop, hrest, List.drop_one, List.tail_cons]

/-- The pages from `first` on borrow what the source maps from `start` on. -/
def Borrows (source : Mmu) (start first : Nat) (p : Nat) (e : TableEntry) : Prop :=
  (source.leaf (start + (p - first))).isPresent = true ∧
    e = .ofFrame (source.leaf (start + (p - first))).frame lentFlags

/-- What lending `n` pages of a source changes in the space they are lent to. -/
structure Lent (source v w : Mmu) (user kernel : VirtualAddress) (n : Nat) : Prop where
  grown : Grown false (Borrows source user.pageNumber kernel.pageNumber) v w kernel.pageNumber n
  some : n ≠ 0
  offset : kernel.offset = user.offset
  fits : user.pageNumber + n ≤ pageCount
  window : aliasWindow.1 ≤ kernel.pageNumber ∧ kernel.pageNumber + n ≤ aliasWindow.2

theorem LentEntry.borrows {u : Mmu} {frames : List Frame} {p : Nat} {e : TableEntry}
    (hf : ∀ i f, frames[i]? = some f → u.frame? (start + i) = some f)
    (h : LentEntry first frames p e) : Borrows u start first p e := by
  obtain ⟨f, hi, rfl⟩ := h
  obtain ⟨hp, rfl⟩ := frame?_eq_some.mp (hf _ f hi)
  exact ⟨hp, rfl⟩

theorem Grown.mono {user : Bool} {new new' : Nat → TableEntry → Prop}
    (h : Grown user new v w first n) (hn : ∀ p e, new p e → new' p e) :
    Grown user new' v w first n :=
  { h with mapped := fun p hle hlt => (h.mapped p hle hlt).imp_left (hn p _) }

def windowRuns (v : Mmu) (n : Nat) : Set Nat :=
  {p | aliasWindow.1 ≤ p ∧ p + n ≤ aliasWindow.2 ∧ v.space.OffersRun p n}

/-- The search knows no end, and its first find may lie past the window. The window holds no
other then, as any run there would have been found before. -/
theorem aliasRun_meets (v : Mmu) {pages : Nat} (hn : pages ≠ 0) :
    (aliasRun pages).Meets gap v fun run w => w = v ∧
      match run with
      | none => v.windowRuns pages = ∅
      | some base => IsLeast (v.windowRuns pages) base.pageNumber := by
  unfold aliasRun
  refine (Op.read_gives fun v : Mmu => v.space.nextRun aliasWindow.1 pages).bind ?_
  cases hrun : v.space.nextRun aliasWindow.1 pages with
  | none =>
    refine Op.pure_meets ⟨rfl, Set.eq_empty_of_forall_notMem ?_⟩
    rintro p ⟨hle, -, hp⟩
    exact not_offersRun hn hrun hle hp
  | some base =>
    obtain ⟨⟨hle, hoffers⟩, hleast⟩ := nextRun_isLeast hn hrun
    have hfit := (nextRun_eq_some hrun).2.2.1
    have hmax : base.page.index.val + pages ≤ maxLength := Nat.le_trans hfit (by decide)
    refine (Op.ofExcept_gives (lengthSum_eq_ok hmax)).bind (Op.pure_meets ⟨rfl, ?_⟩)
    by_cases hstop : base.page.index.val + pages ≤ aliasWindow.2
    · rw [if_pos hstop]
      exact ⟨⟨hle, hstop, hoffers⟩, fun p hp => hleast ⟨hp.1, hp.2.2⟩⟩
    · rw [if_neg hstop]
      refine Set.eq_empty_of_forall_notMem fun p hp => hstop ?_
      have hbefore : base.page.index.val ≤ p := hleast ⟨hp.1, hp.2.2⟩
      have hend := hp.2.1
      omega

structure LentFrames (frames : List Frame) (v w : Mmu) (user kernel : VirtualAddress) : Prop where
  grown : Grown false (LentEntry kernel.pageNumber frames) v w kernel.pageNumber frames.length
  some : frames.length ≠ 0
  offset : kernel.offset = user.offset
  fits : user.pageNumber + frames.length ≤ pageCount
  window : aliasWindow.1 ≤ kernel.pageNumber ∧ kernel.pageNumber + frames.length ≤ aliasWindow.2

inductive LendRefused (frame? : Nat → Option Frame) (v : Mmu) (user : VirtualAddress) (n : Nat) :
    AliasError → Prop where
  | empty (h : n = 0) : LendRefused frame? v user n .empty
  | outside (h : pageCount < user.pageNumber + n) (hn : n ≠ 0) :
    LendRefused frame? v user n (.notMapped user)
  | notMapped {page : Page} (hfit : user.pageNumber + n ≤ pageCount)
    (h : IsLeast (Gaps frame? user.pageNumber n) page.index.val) :
    LendRefused frame? v user n (.notMapped page.base)
  | outOfVirtualSpace (hn : n ≠ 0) (hfit : user.pageNumber + n ≤ pageCount)
    (hmapped : Gaps frame? user.pageNumber n = ∅) (h : v.windowRuns n = ∅) :
    LendRefused frame? v user n (.outOfVirtualSpace n)
  | outOfFrames {first : Nat} (hn : n ≠ 0) (hfit : user.pageNumber + n ≤ pageCount)
    (hmapped : Gaps frame? user.pageNumber n = ∅) (hfirst : IsLeast (v.windowRuns n) first)
    (h : v.machine.pool.available < (v.missingTables first n).card) :
    LendRefused frame? v user n (.paging .outOfFrames)

structure LendsFrames (frame? : Nat → Option Frame) (v w : Mmu) (user kernel : VirtualAddress)
    (frames : List Frame) : Prop extends LentFrames frames v w user kernel where
  known : ∀ i f, frames[i]? = .some f → frame? (user.pageNumber + i) = .some f
  first : IsLeast (v.windowRuns frames.length) kernel.pageNumber

theorem lend_frames_meets {frame? : Nat → Option Frame} (hv : v.Sound) (ht : v.Trimmed)
    (hr : ∀ f, v.available f → v.machine.ram.installed f ∨ gap)
    (hfind : Finds gap source v frame?) (user : VirtualAddress) (length : Nat) :
    (lend (some source) user length).Meets gap v
      (fun kernel w => ∃ frames, frames.length = pagesTouched user.toMemoryAddress length ∧
        LendsFrames frame? v w user kernel frames)
      fun e w => Restored false v w ∧
        LendRefused frame? v user (pagesTouched user.toMemoryAddress length) e := by
  unfold lend
  dsimp only
  split
  · next h0 => exact Call.throw_bind_meets ⟨.refl hv, .empty h0⟩
  next hne =>
  split
  · next hout => exact Call.throw_bind_meets ⟨.refl hv, .outside hout hne⟩
  next hfit =>
  have hle : user.pageNumber + pagesTouched user.toMemoryAddress length ≤ pageCount :=
    Nat.le_of_not_lt hfit
  refine Call.Meets.bind ((framesOf_meets hfind hle).mono (fun _ _ => id) ?_) ?_
  · rintro e w ⟨rfl, page, rfl, hpage⟩
    exact ⟨.refl hv, .notMapped hle hpage⟩
  rintro frames w ⟨rfl, hlen, hknown⟩
  rw [← hlen] at hne hle ⊢
  have hmapped := gaps_of_known hknown
  refine Call.lift_bind_meets (aliasRun_meets w hne) ?_
  rintro run w ⟨rfl, hrun⟩
  cases run with
  | none => exact Call.throw_meets ⟨.refl hv, .outOfVirtualSpace hne hle hmapped hrun⟩
  | some base =>
    have hlent : (lendFrames base.pageNumber 0 frames).Meets gap w _ _ :=
      lendFrames_meets hv ht hr (Nat.zero_le _) List.drop_zero (.refl hv base.pageNumber) hrun.1.2.2
    refine Call.Meets.bind (hlent.mono (fun _ _ => id) ?_) ?_
    · rintro e x ⟨hx, rfl, hscarce⟩
      exact ⟨hx, .outOfFrames hne hle hmapped hrun hscarce⟩
    intro _ x hx
    refine Call.record_bind_meets (by rintro ⟨⟩) ?_
    refine Call.lift_meets ((Op.ofExcept_gives (Page.join_of_lt base.page user.offset_lt)).meets ?_)
    have hkernel : (VirtualAddress.ofBits (base.page.base.bits + user.offset)).pageNumber =
      base.pageNumber := Page.pageNumber_add _ user.offset_lt
    refine ⟨frames, rfl, ⟨?_, hne, Page.offset_add _ user.offset_lt, hle, ?_⟩, hknown, ?_⟩
    · rw [hkernel]
      exact hx
    · rw [hkernel]
      exact ⟨hrun.1.1, hrun.1.2.1⟩
    · rw [hkernel]
      exact hrun

theorem LendsFrames.lent {u : Mmu} {user kernel : VirtualAddress} {frames : List Frame}
    (h : LendsFrames u.frame? v w user kernel frames) : Lent u v w user kernel frames.length where
  grown := h.grown.mono fun _ _ => LentEntry.borrows h.known
  some := h.some
  offset := h.offset
  fits := h.fits
  window := h.window

theorem lend_meets (hv : v.Sound) (ht : v.Trimmed) (hr : v.Reaches gap)
    (hs : (Mmu.mk v.machine source).Sound) (user : VirtualAddress) (length : Nat) :
    (lend (some source) user length).Meets gap v
      (fun kernel w => Lent ⟨v.machine, source⟩ v w user kernel
        (pagesTouched user.toMemoryAddress length))
      fun _ w => Restored false v w := by
  refine (lend_frames_meets hv ht (fun _ => hr.installed) hs.finds user length).mono ?_
    fun _ _ h => h.1
  rintro kernel w ⟨frames, hlen, hw⟩
  rw [← hlen]
  exact hw.lent

theorem lend_any_meets (hv : v.Sound) (ht : v.Trimmed) (source? : Option AddressSpace)
    (user : VirtualAddress) (length : Nat) :
    (lend source? user length).Meets True v
      (fun kernel w => ∃ frames, frames.length = pagesTouched user.toMemoryAddress length ∧
        LentFrames frames v w user kernel)
      fun _ w => Restored false v w := by
  cases source? with
  | none => exact Call.throw_meets (.refl hv)
  | some source =>
    obtain ⟨frame?, hfind⟩ := exists_finds source v
    refine (lend_frames_meets hv ht (fun _ _ => .inr trivial) hfind user length).mono ?_
      fun _ _ h => h.1
    rintro kernel w ⟨frames, hlen, hw⟩
    exact ⟨frames, hlen, hw.toLentFrames⟩

theorem takeBack_meets (hv : v.Sound) (kernel : VirtualAddress) (length : Nat)
    (hn : pagesTouched kernel.toMemoryAddress length ≠ 0)
    (hp : ∀ p, kernel.pageNumber ≤ p →
      p < kernel.pageNumber + pagesTouched kernel.toMemoryAddress length →
      (v.leaf p).isPresent = true) :
    (takeBack kernel length).Meets gap v
      (fun _ w => Unassigned v w kernel.pageNumber (pagesTouched kernel.toMemoryAddress length))
      fun _ _ => False := by
  unfold takeBack
  dsimp only
  rw [if_neg hn]
  refine Call.Meets.bind (Call.adapt_meets (unassign_present hv hn hp)) ?_
  exact fun _ w hw => Call.record_meets (by rintro ⟨⟩) hw

end PagedKernel.Mmu
