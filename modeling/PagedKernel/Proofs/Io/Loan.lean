import PagedKernel.Proofs.Range.Lending
import PagedKernel.Range.Mapper
import PagedKernel.Io.Read

/-! The loan of a read: how it lies in the kernel space and in the space it was
taken from, and how it is made. -/

namespace PagedKernel

namespace VirtualAddress

theorem add_eq_ok (va : VirtualAddress) {n : UInt32} (h : va.toNat + n.toNat < 4294967296) :
    ∃ va' : VirtualAddress, va.add n = .ok va' ∧ va'.toNat = va.toNat + n.toNat := by
  have hc : va.toMemoryAddress.checkedAdd n = some ⟨va.bits + n⟩ := by
    rw [MemoryAddress.checkedAdd]
    exact if_pos h
  refine ⟨⟨⟨va.bits + n⟩⟩, ?_, MemoryAddress.checkedAdd_toNat hc⟩
  rw [add, MemoryAddress.add, hc]
  rfl

end VirtualAddress

namespace Loan

def pages (loan : Loan) : Nat :=
  pagesTouched loan.base.toMemoryAddress loan.span

def Covers (loan : Loan) (page : Nat) : Prop :=
  loan.base.pageNumber ≤ page ∧ page < loan.base.pageNumber + loan.pages

/-- A loan fits the read it was made for. -/
structure Fits (loan : Loan) (r : Read) : Prop where
  count : r.count ≠ 0
  span : loan.span = r.count + r.userBuffer.offset.toNat
  length : loan.span ≤ maxLength
  aligned : loan.base.offset = 0
  buffer : r.kernelBuffer.toNat = loan.base.toNat + r.userBuffer.offset.toNat
  user : r.userBuffer.pageNumber + loan.pages ≤ pageCount
  window : Mmu.aliasWindow.1 ≤ loan.base.pageNumber ∧
    loan.base.pageNumber + loan.pages ≤ Mmu.aliasWindow.2

/-- Each page lent borrows the frame that the user page behind it maps. -/
def Backed (v u : Mmu) (r : Read) (loan : Loan) : Prop :=
  ∀ i < loan.pages, (u.leaf (r.userBuffer.pageNumber + i)).isPresent = true ∧
    v.leaf (loan.base.pageNumber + i) =
      .ofFrame (u.leaf (r.userBuffer.pageNumber + i)).frame Mmu.lentFlags

variable {loan : Loan} {r : Read}

theorem Fits.withState (h : Fits loan r) (state : ReadState) : Fits loan { r with state } :=
  ⟨h.count, h.span, h.length, h.aligned, h.buffer, h.user, h.window⟩

theorem Fits.pages_eq (h : Fits loan r) : loan.pages = pagesSpanning loan.span :=
  pagesTouched_of_aligned h.aligned h.length

theorem Fits.pages_ne_zero (h : Fits loan r) : loan.pages ≠ 0 := by
  have hs := h.span
  have hc := h.count
  rw [h.pages_eq, pagesSpanning]
  omega

theorem borrows_iff_of_loan (hl : r.loan = some loan) (hmax : loan.span ≤ maxLength)
    (va : VirtualAddress) (length : Nat) :
    r.borrows va length = true ↔ length ≠ 0 ∧
      r.userBuffer.pageNumber < va.pageNumber + pagesSpanning (length + va.offset.toNat) ∧
      va.pageNumber < r.userBuffer.pageNumber + pagesSpanning loan.span := by
  have huser := r.userBuffer.pageNumber_lt
  have hva := va.pageNumber_lt
  have htest : r.borrows va length = (length != 0 &&
      decide (r.userBuffer.pageNumber < saturatingAdd va.pageNumber
        (pagesSpanning (saturatingAdd length va.offset.toNat))) &&
      decide (va.pageNumber < saturatingAdd r.userBuffer.pageNumber
        (pagesSpanning loan.span))) := by
    rw [Read.borrows, hl]
    rfl
  simp only [pageCount_value] at huser hva
  simp only [maxLength] at hmax
  rw [htest, Bool.and_eq_true, Bool.and_eq_true, bne_iff_ne, decide_eq_true_eq, decide_eq_true_eq,
    and_assoc]
  simp only [saturatingAdd, maxLength, pagesSpanning]
  omega

theorem Fits.not_borrowed (h : Fits loan r) (hl : r.loan = some loan) {va : VirtualAddress}
    {length : Nat} (hb : r.borrows va length = false) (h0 : length ≠ 0) {i : Nat}
    (hi : i < loan.pages) :
    ¬ (va.pageNumber ≤ r.userBuffer.pageNumber + i ∧ r.userBuffer.pageNumber + i <
      va.pageNumber + pagesSpanning (length + va.offset.toNat)) := by
  rintro ⟨hle, hlt⟩
  rw [h.pages_eq] at hi
  have hmeet : r.borrows va length = true :=
    (borrows_iff_of_loan hl h.length va length).mpr ⟨h0, by omega, by omega⟩
  rw [hb] at hmeet
  cases hmeet

theorem Backed.present {v u : Mmu} (h : Backed v u r loan) {page : Nat} (hp : loan.Covers page) :
    (v.leaf page).isPresent = true := by
  obtain ⟨hle, hlt⟩ := hp
  have hi := (h (page - loan.base.pageNumber) (by omega)).2
  rw [Nat.add_sub_cancel' hle] at hi
  rw [hi]
  rfl

end Loan

namespace Read

variable {v w : Mmu} {gap : Prop} {source : AddressSpace}

def Prepared (source v w : Mmu) (r : Read) : Prop :=
  match r.loan with
  | none => r.count = 0 ∧ w = v
  | some loan => loan.Fits r ∧
    Mmu.Lent source v w r.userBuffer.page.base loan.base loan.pages

structure Starts (r : Read) (fd : Fd) (user : VirtualAddress) (slot : SlotId) : Prop where
  fd : r.fd = fd
  user : r.userBuffer = user
  state : r.state = .notStarted
  slot : r.slot = slot

namespace Prepared

variable {u : Mmu} {r : Read} {loan : Loan}

theorem unlent (h : Prepared u v w r) (hl : r.loan = none) : r.count = 0 ∧ w = v := by
  simpa only [Prepared, hl] using h

theorem lent (h : Prepared u v w r) (hl : r.loan = some loan) :
    loan.Fits r ∧ Mmu.Lent u v w r.userBuffer.page.base loan.base loan.pages := by
  simpa only [Prepared, hl] using h

theorem step (h : Prepared u v w r) (hv : v.Sound) (ht : v.Trimmed) :
    w.Sound ∧ w.Trimmed ∧ Mmu.Step none v w ∧ ∀ p, w.leaf p = v.leaf p ∨
      (v.leaf p).isPresent = false ∧ (w.leaf p).isBorrowed = true := by
  cases hl : r.loan with
  | none =>
    obtain ⟨-, rfl⟩ := h.unlent hl
    exact ⟨hv, ht, .refl w, fun _ => .inl rfl⟩
  | some loan =>
    have hg := (h.lent hl).2.grown
    refine ⟨hg.sound, hg.trimmed ht, hg.step, fun p => ?_⟩
    by_cases hp : loan.Covers p
    · obtain ⟨⟨-, hnew⟩, -⟩ := hg.mapped p hp.1 hp.2
      refine .inr ⟨hv.offered (hg.before p hp.1 hp.2), ?_⟩
      rw [hnew]
      rfl
    · exact .inl (hg.leaf p hp)

theorem backed (h : Prepared u v w r) (hv : v.Sound) (hl : r.loan = some loan) :
    (∀ p, loan.Covers p → (v.leaf p).isPresent = false) ∧ loan.Backed w u r := by
  obtain ⟨hfits, hlent⟩ := h.lent hl
  have hg := hlent.grown
  refine ⟨fun p hp => hv.offered (hg.before p hp.1 hp.2), ?_⟩
  intro i hi
  obtain ⟨hpresent, hnew⟩ := (hg.mapped (loan.base.pageNumber + i) (by omega) (by omega)).1
  rw [Nat.add_sub_cancel_left, Page.base_pageNumber] at hpresent hnew
  exact ⟨hpresent, hnew⟩

end Prepared

theorem prepare_meets (hv : v.Sound) (ht : v.Trimmed) (hr : v.Reaches gap)
    (hs : (Mmu.mk v.machine source).Sound) (fd : Fd) (user : VirtualAddress) (count : Nat)
    (slot : SlotId) :
    (prepare (Mmu.aliasMapper (some source)) fd user count slot).Meets gap v
      (fun r w => Prepared ⟨v.machine, source⟩ v w r ∧ r.Starts fd user slot)
      fun _ w => Mmu.Restored false v w := by
  unfold prepare
  split
  · next h0 =>
    exact Call.record_bind_meets (by rintro ⟨⟩) (Call.pure_meets ⟨⟨h0, rfl⟩, rfl, rfl, rfl, rfl⟩)
  next h0 =>
  cases hadd : checkedAdd count user.offset.toNat with
  | none => exact Call.throw_meets (.refl hv)
  | some span =>
    obtain ⟨hspan, hlength⟩ := checkedAdd_eq_some_iff.mp hadd
    refine Call.Meets.bind (Mmu.lend_meets hv ht hr hs user.page.base span) ?_
    intro base w hw
    have haligned : base.offset = 0 := hw.offset.trans (Page.base_offset _)
    have hpages : pagesTouched user.page.base.toMemoryAddress span = Loan.pages ⟨base, span⟩ := by
      rw [pagesTouched_of_aligned (Page.base_offset _) hlength, Loan.pages,
        pagesTouched_of_aligned haligned hlength]
    rw [hpages] at hw
    have hfit := hw.fits
    have hwindow := hw.window
    rw [Page.base_pageNumber] at hfit
    have hsmall : base.toNat + user.offset.toNat < 4294967296 := by
      have hoff : user.offset.toNat < 4096 := UInt32.lt_iff_toNat_lt.mp user.offset_lt
      have hzero : base.offset.toNat = 0 := congrArg UInt32.toNat haligned
      have hend : base.pageNumber ≤ 983040 := Nat.le_trans (Nat.le_add_right _ _) hwindow.2
      rw [base.toNat_eq]
      omega
    obtain ⟨kernel, hkernel, hsum⟩ := base.add_eq_ok hsmall
    refine (Op.ofExcept_gives hkernel).lift_bind ?_
    refine Call.record_bind_meets (by rintro ⟨⟩) (Call.pure_meets ⟨⟨?_, hw⟩, rfl, rfl, rfl, rfl⟩)
    exact ⟨h0, hspan.symm, hlength, haligned, hsum, hfit, hwindow⟩

end Read
end PagedKernel
