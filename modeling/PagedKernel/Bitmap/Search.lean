import PagedKernel.Bitmap.Basic

/-! Searching a bitmap: the first bit with a value, the first run of such
bits, and the list of all maximal runs. Words without a hit are passed over
whole. -/

namespace PagedKernel.Bitmap

/-- The first bit with the value at or after `i` and below `stop`. -/
def findFrom {len : Nat} (b : Bitmap len) (value : Bool) (i stop : Nat) : Option (Fin len) :=
  if hi : i < stop ∧ i < len then
    have hw := word_lt hi.2
    if i % 64 = 0 ∧ b.words[i / 64] = fillWord (!value) then findFrom b value (i + 64) stop
    else if b.bit i hi.2 = value then some ⟨i, hi.2⟩
    else findFrom b value (i + 1) stop
  else none
termination_by stop - i

theorem le_of_findFrom {len : Nat} {b : Bitmap len} {value : Bool} {i stop : Nat} {j : Fin len}
    (h : b.findFrom value i stop = some j) : i ≤ j.val := by
  fun_induction findFrom b value i stop with
  | case1 i hi hw hskip ih => exact Nat.le_trans (by omega) (ih h)
  | case2 i hi hw hskip hbit => cases h; exact Nat.le_refl i
  | case3 i hi hw hskip hbit ih => exact Nat.le_trans (by omega) (ih h)
  | case4 i hi => cases h

def nextTrue {len : Nat} (b : Bitmap len) (start : Nat) : Option (Fin len) :=
  b.findFrom true start len

def nextFalse {len : Nat} (b : Bitmap len) (start : Nat) : Option (Fin len) :=
  b.findFrom false start len

/-- The first start, at or after `start`, of `count` bits with the value. -/
def runFrom {len : Nat} (b : Bitmap len) (value : Bool) (count start : Nat) : Option (Fin len) :=
  match hc : b.findFrom value start len with
  | none => none
  | some candidate =>
    if candidate.val + count ≤ len then
      match hb : b.findFrom (!value) candidate.val (candidate.val + count) with
      | none => some candidate
      | some blocker =>
        have := le_of_findFrom hc
        have := le_of_findFrom hb
        runFrom b value count (blocker.val + 1)
    else none
termination_by len - start

/-- As `runFrom`; a run of no bits is never found. -/
def findRun {len : Nat} (b : Bitmap len) (value : Bool) (start count : Nat) : Option (Fin len) :=
  if count = 0 then none else b.runFrom value count start

def runsFrom {len : Nat} (b : Bitmap len) (start : Nat) : List (Nat × Nat) :=
  match hs : b.findFrom true start len with
  | none => []
  | some first =>
    match hf : b.findFrom false (first.val + 1) len with
    | none => [(first.val, len)]
    | some stop =>
      have := le_of_findFrom hs
      have := le_of_findFrom hf
      (first.val, stop.val) :: runsFrom b stop.val
termination_by len - start

def runs {len : Nat} (b : Bitmap len) : List (Nat × Nat) :=
  b.runsFrom 0

end PagedKernel.Bitmap
