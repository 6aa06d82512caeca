import PagedKernel.Text.Refusal

/-! A bitmap: one bit per unit of memory, packed into 64-bit words. A set bit
marks an available unit. The bits past the end of the last word stay clear, so
that counting and comparing can work on whole words. -/

namespace PagedKernel

structure BitmapError where
  start : Nat
  count : Nat
  len : Nat
  deriving DecidableEq

namespace BitmapError

def message (e : BitmapError) : String :=
  s!"bit range {e.start}+{e.count} exceeds bitmap length {e.len}"

instance : Refusal BitmapError where
  debug e := Text.record "BitmapError"
    [("start", debug e.start), ("count", debug e.count), ("len", debug e.len)]
  kind _ := "BitmapError"
  message := message

end BitmapError

structure Bitmap (len : Nat) where
  words : Vector UInt64 ((len + 63) / 64)
  deriving DecidableEq

namespace Bitmap

def fillWord (value : Bool) : UInt64 :=
  if value then 18446744073709551615 else 0

def mask (k : Nat) : UInt64 :=
  1 <<< UInt64.ofNat k

theorem word_lt {len i : Nat} (h : i < len) : i / 64 < (len + 63) / 64 := by
  omega

/-- Clears the bits past the end of the last word. -/
def clearPadding {len : Nat} (b : Bitmap len) : Bitmap len :=
  if h : len % 64 ≠ 0 then
    have hl : len / 64 < (len + 63) / 64 := by omega
    ⟨b.words.set (len / 64) (b.words[len / 64] &&& (mask (len % 64) - 1)) hl⟩
  else b

def filled (len : Nat) (value : Bool) : Bitmap len :=
  clearPadding ⟨Vector.replicate _ (fillWord value)⟩

def bit {len : Nat} (b : Bitmap len) (i : Nat) (h : i < len) : Bool :=
  have hw := word_lt h
  b.words[i / 64] &&& mask (i % 64) != 0

def get? {len : Nat} (b : Bitmap len) (i : Nat) : Option Bool :=
  if h : i < len then some (b.bit i h) else none

theorem get?_eq_none_iff {len : Nat} (b : Bitmap len) (i : Nat) : b.get? i = none ↔ len ≤ i := by
  unfold get?
  split <;> simp <;> omega

def write {len : Nat} (b : Bitmap len) (i : Nat) (value : Bool) (h : i < len) : Bitmap len :=
  have hw := word_lt h
  ⟨b.words.set (i / 64)
    (if value then b.words[i / 64] ||| mask (i % 64) else b.words[i / 64] &&& ~~~mask (i % 64)) hw⟩

/-- Writes the bits from `i` up to `stop`, whole words at once where it can. -/
def fillFrom {len : Nat} (b : Bitmap len) (value : Bool) (i stop : Nat) (h : stop ≤ len) :
    Bitmap len :=
  if hi : i < stop then
    if i % 64 = 0 ∧ i + 64 ≤ stop then
      have hw : i / 64 < (len + 63) / 64 := by omega
      fillFrom ⟨b.words.set (i / 64) (fillWord value) hw⟩ value (i + 64) stop h
    else
      fillFrom (b.write i value (by omega)) value (i + 1) stop h
  else b
termination_by stop - i

def setBit {len : Nat} (b : Bitmap len) (i : Nat) (value : Bool) :
    Except BitmapError (Bitmap len) :=
  if h : i < len then .ok (b.write i value h) else .error ⟨i, 1, len⟩

/-- Writes `count` bits from `start`, or refuses and writes none. -/
def setRange {len : Nat} (b : Bitmap len) (start count : Nat) (value : Bool) :
    Except BitmapError (Bitmap len) :=
  if h : start + count ≤ len then .ok (b.fillFrom value start (start + count) h)
  else .error ⟨start, count, len⟩

def popCountBelow (w : UInt64) : Nat → Nat
  | 0 => 0
  | k + 1 => popCountBelow w k + if w &&& mask k != 0 then 1 else 0

def popCount (w : UInt64) : Nat :=
  if w = 0 then 0 else if w = fillWord true then 64 else popCountBelow w 64

def countTrue {len : Nat} (b : Bitmap len) : Nat :=
  b.words.foldl (fun n w => n + popCount w) 0

instance {len : Nat} : Debug (Bitmap len) where
  debug b := Text.record "Bitmap" [("len", debug len), ("available", debug b.countTrue)]

end Bitmap
end PagedKernel
