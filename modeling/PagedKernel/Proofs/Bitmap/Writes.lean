import Mathlib.Data.Finset.Range
import PagedKernel.Proofs.Bitmap.Count
import PagedKernel.Proofs.Replay

/-! A bitmap is a sequence of booleans, packed. Whatever is written, the answers are those of
the plain sequence, written place by place, and the bits are its booleans. Nothing is ever
written into the padding, so words can be counted and compared in place of bits. -/

namespace PagedKernel

/-- What is asked to be written: a value, at a number of places from a first one on. -/
inductive Write where
  | bit (i : Nat) (value : Bool)
  | range (start count : Nat) (value : Bool)

namespace Write

def start : Write → Nat
  | bit i _ => i
  | range start _ _ => start

def count : Write → Nat
  | bit _ _ => 1
  | range _ count _ => count

def value : Write → Bool
  | bit _ value => value
  | range _ _ value => value

def Covers (w : Write) (i : Nat) : Prop :=
  w.start ≤ i ∧ i < w.start + w.count

instance (w : Write) : DecidablePred w.Covers :=
  fun i => inferInstanceAs (Decidable (w.start ≤ i ∧ i < w.start + w.count))

def onList (bs : List Bool) (w : Write) : Except BitmapError Unit × List Bool :=
  if w.start + w.count ≤ bs.length then
    (.ok (), (List.range' w.start w.count).foldl (fun bs i => bs.set i w.value) bs)
  else (.error ⟨w.start, w.count, bs.length⟩, bs)

end Write

namespace Bitmap

variable {len : Nat}

def written (b : Bitmap len) : Write → Except BitmapError (Bitmap len)
  | .bit i value => b.setBit i value
  | .range start count value => b.setRange start count value

def perform (b : Bitmap len) (w : Write) : Except BitmapError Unit × Bitmap len :=
  match b.written w with
  | .ok b' => (.ok (), b')
  | .error e => (.error e, b)

def bits (b : Bitmap len) : List Bool :=
  List.ofFn fun i : Fin len => b.bit i.val i.isLt

theorem length_bits (b : Bitmap len) : b.bits.length = len :=
  List.length_ofFn

theorem getElem?_bits (b : Bitmap len) (i : Nat) : b.bits[i]? = b.get? i := by
  rw [bits, List.getElem?_ofFn, get?]

theorem get?_eq (b : Bitmap len) (i : Nat) :
    b.get? i = if i < len then some (b.stored i) else none := by
  unfold get?
  split
  · next h => rw [bit_eq_stored]
  · rfl

theorem bits_filled (value : Bool) : (filled len value).bits = List.replicate len value := by
  refine List.ext_getElem? fun i => ?_
  rw [getElem?_bits, get?_eq, List.getElem?_replicate]
  split
  · next h => rw [stored_filled, decide_eq_true h, Bool.true_and]
  · rfl

/-! Single bits are ranges of one. -/

theorem fillFrom_one (b : Bitmap len) (value : Bool) {i : Nat} (h : i + 1 ≤ len) :
    b.fillFrom value i (i + 1) h = b.write i value h := by
  refine eq_of_stored fun j => ?_
  rw [stored_fillFrom, stored_write]
  simp only [show i ≤ j ∧ j < i + 1 ↔ j = i by omega]

theorem written_eq (b : Bitmap len) (w : Write) :
    b.written w = b.setRange w.start w.count w.value := by
  cases w with
  | range => rfl
  | bit i value =>
    simp only [written, setBit, Write.start, Write.count, Write.value, setRange, fillFrom_one]
    rfl

theorem setRange_of_le (b : Bitmap len) {start count : Nat} (value : Bool)
    (h : start + count ≤ len) :
    b.setRange start count value = .ok (b.fillFrom value start (start + count) h) :=
  dif_pos h

theorem setRange_of_lt (b : Bitmap len) {start count : Nat} (value : Bool)
    (h : len < start + count) : b.setRange start count value = .error ⟨start, count, len⟩ :=
  dif_neg (Nat.not_le.mpr h)

theorem setRange_eq_foldlM (b : Bitmap len) {start count : Nat} (value : Bool)
    (h : start + count ≤ len) :
    b.setRange start count value =
      (List.range' start count).foldlM (fun b i => b.setBit i value) b := by
  induction count generalizing start b with
  | zero =>
    rw [setRange_of_le b value h]
    refine congrArg Except.ok (eq_of_stored fun j => ?_)
    rw [stored_fillFrom, if_neg (by omega)]
  | succ count ih =>
    have hi : start < len := by omega
    have hbit : b.setBit start value = .ok (b.write start value hi) := dif_pos hi
    rw [List.range'_succ, List.foldlM_cons, hbit]
    change _ = List.foldlM _ _ _
    rw [← ih (b.write start value hi) (by omega), setRange_of_le _ _ h,
      setRange_of_le _ _ (by omega)]
    refine congrArg Except.ok (eq_of_stored fun j => ?_)
    rw [stored_fillFrom, stored_fillFrom, stored_write]
    grind

/-! One write. -/

/-- What a write answers, and what it makes of the bitmap. A sum of start and count that leaves
the words of a machine is greater than any length. -/
structure Obeys (b : Bitmap len) (w : Write) : Prop where
  refused : ∀ e, (b.perform w).1 = .error e ↔
    len < w.start + w.count ∧ e = ⟨w.start, w.count, len⟩
  unchanged : len < w.start + w.count → (b.perform w).2 = b
  written : w.start + w.count ≤ len →
    (List.range' w.start w.count).foldlM (fun b i => b.setBit i w.value) b =
      .ok (b.perform w).2 ∧
    ∀ i, (b.perform w).2.get? i = if w.Covers i then some w.value else b.get? i

theorem perform_of_le (b : Bitmap len) {w : Write} (h : w.start + w.count ≤ len) :
    b.perform w = (.ok (), b.fillFrom w.value w.start (w.start + w.count) h) := by
  rw [perform, written_eq, setRange_of_le b w.value h]

theorem perform_of_lt (b : Bitmap len) {w : Write} (h : len < w.start + w.count) :
    b.perform w = (.error ⟨w.start, w.count, len⟩, b) := by
  rw [perform, written_eq, setRange_of_lt b w.value h]

theorem get?_fillFrom (b : Bitmap len) (value : Bool) {i stop : Nat} (h : stop ≤ len) (j : Nat) :
    (b.fillFrom value i stop h).get? j = if i ≤ j ∧ j < stop then some value else b.get? j := by
  rw [get?_eq, get?_eq, stored_fillFrom]
  split
  · split <;> rfl
  · rw [if_neg (by omega)]

theorem obeys (b : Bitmap len) (w : Write) : b.Obeys w := by
  rcases Nat.lt_or_ge len (w.start + w.count) with hlt | hle
  · have hp := b.perform_of_lt hlt
    refine ⟨fun e => ?_, fun _ => by rw [hp], fun hle => absurd hlt (Nat.not_lt.mpr hle)⟩
    rw [hp, Except.error.injEq, and_iff_right hlt, eq_comm]
  · have hp := b.perform_of_le hle
    refine ⟨fun e => ?_, fun hlt => absurd hlt (Nat.not_lt.mpr hle), fun _ => ⟨?_, fun i => ?_⟩⟩
    · rw [hp]
      exact ⟨nofun, fun h => absurd h.1 (Nat.not_lt.mpr hle)⟩
    · rw [hp, ← setRange_eq_foldlM b w.value hle, setRange_of_le b w.value hle]
    · rw [hp, get?_fillFrom]
      rfl

theorem perform_clean {b : Bitmap len} (hb : b.Clean) (w : Write) : (b.perform w).2.Clean := by
  rcases Nat.lt_or_ge len (w.start + w.count) with hlt | hle
  · rwa [perform_of_lt b hlt]
  · rw [perform_of_le b hle]
    exact hb.fillFrom w.value hle

end Bitmap

/-! The plain sequence. -/

namespace Write

theorem getElem?_foldl_set (bs : List Bool) (value : Bool) (start count j : Nat) :
    ((List.range' start count).foldl (fun bs i => bs.set i value) bs)[j]? =
      if start ≤ j ∧ j < start + count ∧ j < bs.length then some value else bs[j]? := by
  induction count generalizing start bs with
  | zero => rw [if_neg (by omega)]; rfl
  | succ count ih =>
    rw [List.range'_succ, List.foldl_cons, ih, List.length_set]
    grind

end Write

namespace Bitmap

variable {len : Nat}

theorem foretold : Foretold (@perform len) Write.onList bits Clean where
  keeps b w hb := perform_clean hb w
  answer b w hb := by
    rcases Nat.lt_or_ge len (w.start + w.count) with hlt | hle
    · rw [perform_of_lt b hlt, Write.onList, length_bits, if_neg (Nat.not_le.mpr hlt)]
    · rw [perform_of_le b hle, Write.onList, length_bits, if_pos hle]
  pace b w hb := by
    refine List.ext_getElem? fun j => ?_
    rcases Nat.lt_or_ge len (w.start + w.count) with hlt | hle
    · rw [perform_of_lt b hlt, Write.onList, length_bits, if_neg (Nat.not_le.mpr hlt)]
    · rw [perform_of_le b hle, Write.onList, length_bits, if_pos hle,
        Write.getElem?_foldl_set, getElem?_bits, getElem?_bits, get?_fillFrom, length_bits]
      grind

/-- What can be relied on in a bitmap that was filled and written to. -/
structure Packed (b : Bitmap len) : Prop where
  words : b.words.toList.length = (len + 63) / 64
  padding : ∀ i, len ≤ i → b.stored i = false
  ends : ∀ i, b.get? i = none ↔ len ≤ i
  count : b.countTrue = ((Finset.range len).filter fun i => b.get? i = some true).card

theorem Clean.packed {b : Bitmap len} (hb : b.Clean) : b.Packed where
  words := Vector.length_toList
  padding := hb
  ends := b.get?_eq_none_iff
  count := by
    rw [hb.countTrue_eq_count, Nat.count_eq_card_filter_range]
    refine congrArg Finset.card (Finset.filter_congr fun i _ => ?_)
    cases b.get? i <;> simp

theorem Clean.eq_iff {m n : Nat} {a : Bitmap m} {b : Bitmap n} (ha : a.Clean) (hb : b.Clean) :
    (⟨m, a⟩ : Σ len, Bitmap len) = ⟨n, b⟩ ↔ m = n ∧ ∀ i, a.get? i = b.get? i := by
  constructor
  · rintro ⟨⟩
    exact ⟨rfl, fun _ => rfl⟩
  · rintro ⟨rfl, h⟩
    refine congrArg _ (ha.eq_of_bits hb fun i hi => ?_)
    have hi' := h i
    rw [get?_of_lt a hi, get?_of_lt b hi] at hi'
    exact Option.some.inj hi'

def after (len : Nat) (value : Bool) (ws : List Write) : Bitmap len :=
  (replay perform (filled len value) ws).2

/-- Packing a sequence of booleans is not seen: neither in the answers to writes, nor in the
bits, their number or in comparing. -/
theorem packing_exact (len : Nat) (value : Bool) (ws : List Write) :
    let plain := replay Write.onList (List.replicate len value) ws
    (replay perform (filled len value) ws).1 = plain.1 ∧ (after len value ws).bits = plain.2 ∧
      (after len value ws).Packed ∧ (∀ w, (after len value ws).Obeys w) ∧
      ∀ len' value' ws',
        (⟨len, after len value ws⟩ : Σ n, Bitmap n) = ⟨len', after len' value' ws'⟩ ↔
          len = len' ∧ ∀ i, (after len value ws).get? i = (after len' value' ws').get? i := by
  have hclean : ∀ len value ws, (after len value ws).Clean :=
    fun len value ws => (foretold.throughout (clean_filled value) ws).1
  have hfilled : (filled len value).Clean := clean_filled value
  obtain ⟨-, hanswers, hbits⟩ := foretold.throughout hfilled ws
  rw [bits_filled] at hanswers hbits
  exact ⟨hanswers, hbits, (hclean len value ws).packed, obeys _,
    fun len' value' ws' => (hclean len value ws).eq_iff (hclean len' value' ws')⟩

end Bitmap
end PagedKernel
