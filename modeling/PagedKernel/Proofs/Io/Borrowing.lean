import PagedKernel.Proofs.Io.Lifecycle
import PagedKernel.Proofs.Io.Loan
import PagedKernel.Proofs.Range.Removal

/-! The borrow test of a read. It rounds the lent buffer from the base of its first page, and
the range it is asked about up to where lengths saturate; all the same it says whether some
page has a byte of both. -/

namespace PagedKernel

namespace Page

variable {page : Page} {start n : Nat}

/-- Some of `n` bytes from an address lie on the page. Their numbers do not wrap. -/
def Meets (page : Page) (start n : Nat) : Prop :=
  ∃ a, start ≤ a ∧ a < start + n ∧ a / pageSize = page.index.val

theorem Meets.pos (h : page.Meets start n) : 0 < n := by
  obtain ⟨a, hle, hlt, -⟩ := h
  omega

theorem meets_iff (page : Page) (va : VirtualAddress) {length : Nat} (h0 : length ≠ 0) :
    page.Meets va.toNat length ↔ va.pageNumber ≤ page.index.val ∧
      page.index.val < va.pageNumber + pagesSpanning (length + va.offset.toNat) :=
  (Mmu.mem_pages_iff va h0 page.index.val).symm

theorem exists_meets_iff (user va : VirtualAddress) {count length : Nat} (hc : count ≠ 0)
    (h0 : length ≠ 0) : (∃ page : Page, page.Meets user.toNat count ∧ page.Meets va.toNat length) ↔
      user.pageNumber < va.pageNumber + pagesSpanning (length + va.offset.toNat) ∧
      va.pageNumber < user.pageNumber + pagesSpanning (count + user.offset.toNat) := by
  simp only [meets_iff _ user hc, meets_iff _ va h0]
  constructor
  · rintro ⟨page, huser, hva⟩
    omega
  · intro h
    have hfirst : max user.pageNumber va.pageNumber < pageCount :=
      Nat.max_lt.mpr ⟨user.pageNumber_lt, va.pageNumber_lt⟩
    have hcount : 0 < pagesSpanning (count + user.offset.toNat) := by
      rw [pagesSpanning]
      omega
    have hlength : 0 < pagesSpanning (length + va.offset.toNat) := by
      rw [pagesSpanning]
      omega
    refine ⟨⟨⟨_, hfirst⟩⟩, ?_, ?_⟩ <;> dsimp only <;> omega

end Page

namespace Read

variable {δ μ : Type} {r : Read} {user : VirtualAddress} {count : Nat} {slot : SlotId}

/-- The read still borrows the page from the process that made it. -/
def Borrows (r : Read) (page : Page) : Prop :=
  r.holdsLoan = true ∧ page.Meets r.userBuffer.toNat r.count

/-- While a read holds a loan, the loan spans its bytes and what lies in front of them on their
first page. -/
def Spans (r : Read) : Prop :=
  ∀ loan, r.loan = some loan →
    r.count ≠ 0 ∧ loan.span = r.count + r.userBuffer.offset.toNat ∧ loan.span ≤ maxLength

theorem prepare_spans (mapper : AliasMapper μ) (fd : Fd) (user : VirtualAddress) (count : Nat)
    (slot : SlotId) (m : μ) :
    (prepare mapper fd user count slot).run.Leads True m fun answer _ =>
      ∀ r, answer = .ok r → r.userBuffer = user ∧ r.count = count ∧ r.Spans := by
  unfold prepare
  split
  · rintro events r ⟨⟩
    exact ⟨rfl, rfl, nofun⟩
  next h0 =>
  cases hspan : checkedAdd count user.offset.toNat with
  | none => rintro events r ⟨⟩
  | some span =>
    obtain ⟨hsum, hmax⟩ := checkedAdd_eq_some_iff.mp hspan
    refine Op.Leads.bind (Op.leads_any _ m) fun answer t _ => ?_
    cases answer with
    | error cause => rintro events r ⟨⟩
    | ok base =>
      dsimp only [ExceptT.bindCont]
      cases base.add user.offset with
      | error fault => exact fun _ => trivial
      | ok kernel =>
        rintro events r ⟨⟩
        refine ⟨rfl, rfl, ?_⟩
        rintro loan ⟨⟩
        exact ⟨h0, hsum.symm, hmax⟩

theorem spans_of_fits (h : ∀ {loan}, r.loan = some loan → loan.Fits r) : r.Spans :=
  fun _ hl => ⟨(h hl).count, (h hl).span, (h hl).length⟩

structure Keeps (r r' : Read) : Prop where
  buffer : r'.userBuffer = r.userBuffer
  count : r'.count = r.count
  loan : r'.loan = r.loan ∨ r'.loan = none

theorem Keeps.trans {r' r'' : Read} (h : Keeps r r') (h' : Keeps r' r'') : Keeps r r'' where
  buffer := h'.buffer.trans h.buffer
  count := h'.count.trans h.count
  loan := h'.loan.elim (fun he => he ▸ h.loan) .inr

theorem Makes.keeps {back : μ → Prop} {s t : Read × IoWorld δ μ} {move : Move}
    (h : Makes back s move t) : Keeps s.1 t.1 := by
  cases h with
  | wait state => exact ⟨rfl, rfl, .inl rfl⟩
  | finish result => exact ⟨rfl, rfl, .inr rfl⟩

theorem Step.keeps {backend : Backend δ μ} {s t : Read × RecordedWorld δ μ}
    (h : Step backend slot s t) : Keeps s.1 t.1 := by
  cases h with
  | call call hrun =>
    obtain ⟨-, hmakes⟩ := (call.run_leads backend.recorded (returns_any _ _)).post hrun
    exact hmakes.keeps
  | between => exact ⟨rfl, rfl, .inl rfl⟩

theorem Run.keeps {backend : Backend δ μ} {s t : Read × RecordedWorld δ μ}
    (h : Run backend slot s t) : Keeps s.1 t.1 := by
  induction h with
  | refl => exact ⟨rfl, rfl, .inl rfl⟩
  | tail _ hstep ih => exact ih.trans hstep.keeps

theorem Spans.keeps {r' : Read} (h : r.Spans) (hk : Keeps r r') : r'.Spans := by
  intro loan hl
  rw [hk.buffer, hk.count]
  rcases hk.loan with he | he
  · exact h loan (he.symm.trans hl)
  · cases he.symm.trans hl

theorem Spans.borrows_iff (h : r.Spans) (va : VirtualAddress) (length : Nat) :
    r.borrows va length = true ↔
      0 < length ∧ ∃ page, r.Borrows page ∧ page.Meets va.toNat length := by
  unfold Borrows
  simp only [and_assoc, exists_and_left]
  cases hl : r.loan with
  | none => simp [borrows, holdsLoan, hl]
  | some loan =>
    obtain ⟨hc, hspan, hmax⟩ := h loan hl
    have hholds : r.holdsLoan = true := by rw [holdsLoan, hl, Option.isSome_some]
    rw [Loan.borrows_iff_of_loan hl hmax, hspan, Nat.pos_iff_ne_zero]
    refine and_congr_right fun h0 => ?_
    rw [Page.exists_meets_iff _ va hc h0]
    exact (and_iff_right hholds).symm

/-- The borrow test of a read of `count` bytes is about the pages it borrows. -/
structure TestsPages (user : VirtualAddress) (count : Nat) (r : Read) : Prop where
  buffer : r.userBuffer = user
  count : r.count = count
  borrows_iff : ∀ va length, r.borrows va length = true ↔
    0 < length ∧ ∃ page, r.Borrows page ∧ page.Meets va.toNat length

theorem Run.testsPages {backend : Backend δ μ} {fd : Fd} {m : μ} {events : Array Event}
    {t : Traced (Recorded μ LoanCall)} {s : RecordedWorld δ μ} {u : Read × RecordedWorld δ μ}
    (hprepare : (prepare backend.mapper.recorded fd user count slot).run ⟨⟨m, []⟩, events⟩ =
      .ok (.ok r) t) (hrun : Run backend slot (r, s) u) : u.1.TestsPages user count := by
  obtain ⟨hbuffer, hcount, hspans⟩ :=
    (prepare_spans backend.mapper.recorded fd user count slot ⟨m, []⟩).post hprepare r rfl
  have hkeeps := Run.keeps hrun
  exact ⟨hkeeps.buffer.trans hbuffer, hkeeps.count.trans hcount, (hspans.keeps hkeeps).borrows_iff⟩

end Read
end PagedKernel
