import PagedKernel.Address.Virtual

/-! Lengths have 64 bits. Adding the in-page offset of an address to a length
either saturates or is refused; other sums and differences must stay in range,
or they are faults. -/

namespace PagedKernel

def maxLength : Nat := 18446744073709551615

def saturatingAdd (a b : Nat) : Nat :=
  min (a + b) maxLength

def checkedAdd (a b : Nat) : Option Nat :=
  if a + b ≤ maxLength then some (a + b) else none

/-- The sum; leaving the width of a length is a fault. -/
def lengthSum (a b : Nat) : Except Fault Nat :=
  if a + b ≤ maxLength then .ok (a + b) else .error .addOverflow

def lengthTotal (lengths : List Nat) : Except Fault Nat :=
  lengths.foldlM lengthSum 0

def lengthDifference (a b : Nat) : Except Fault Nat :=
  if b ≤ a then .ok (a - b) else .error .subOverflow

theorem saturatingAdd_of_le {a b : Nat} (h : a + b ≤ maxLength) : saturatingAdd a b = a + b := by
  simp only [saturatingAdd]
  omega

theorem checkedAdd_eq_some_iff {a b c : Nat} :
    checkedAdd a b = some c ↔ a + b = c ∧ c ≤ maxLength := by
  simp only [checkedAdd]
  split
  · simp only [Option.some.injEq]
    omega
  · simp only [reduceCtorEq, false_iff]
    omega

theorem lengthSum_eq_ok {a b : Nat} (h : a + b ≤ maxLength) : lengthSum a b = .ok (a + b) :=
  if_pos h

theorem le_foldl_add (lengths : List Nat) (a : Nat) : a ≤ lengths.foldl (· + ·) a := by
  induction lengths generalizing a with
  | nil => exact Nat.le_refl a
  | cons b rest ih => exact Nat.le_trans (Nat.le_add_right a b) (ih (a + b))

/-- No sum on the way overflows unless the total does. -/
theorem foldlM_lengthSum (lengths : List Nat) {a : Nat} (h : a ≤ maxLength) :
    lengths.foldlM lengthSum a =
      if lengths.foldl (· + ·) a ≤ maxLength then .ok (lengths.foldl (· + ·) a)
      else .error .addOverflow := by
  induction lengths generalizing a with
  | nil => exact (if_pos h).symm
  | cons b rest ih =>
    rw [List.foldlM_cons, List.foldl_cons]
    by_cases hstep : a + b ≤ maxLength
    · rw [lengthSum_eq_ok hstep]
      exact ih hstep
    · have htotal : ¬ rest.foldl (· + ·) (a + b) ≤ maxLength := fun hle =>
        hstep (Nat.le_trans (le_foldl_add rest (a + b)) hle)
      rw [lengthSum, if_neg hstep, if_neg htotal]
      rfl

theorem lengthDifference_eq_ok {a b : Nat} (h : b ≤ a) : lengthDifference a b = .ok (a - b) :=
  if_pos h

/-- Pages that `length` bytes from an address touch, counted from the page of
the address; the first page counts even when the length is zero and the address
is not page-aligned. -/
def pagesTouched (va : MemoryAddress) (length : Nat) : Nat :=
  pagesSpanning (saturatingAdd length va.pageOffset.toNat)

end PagedKernel
