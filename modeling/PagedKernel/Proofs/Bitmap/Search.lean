import Mathlib.Order.Bounds.Basic
import PagedKernel.Proofs.Bitmap

/-! Searches of a bitmap are exact. They answer the least place at or after the start that has
what is asked for, and none only if there is no such place.

A search may also be run on the words alone: the first word is masked, and the lowest bit of
a word is taken by counting its trailing zeros. Both come to the same, and no word past the
last is read. -/

namespace PagedKernel.Bitmap

variable {len : Nat} {b : Bitmap len} {value : Bool} {start stop : Nat}

/-! What a search decides. -/

theorem findFrom_eq_some_iff {k : Fin len} :
    b.findFrom value start stop = some k ↔
      start ≤ k.val ∧ k.val < stop ∧ b.bit k.val k.isLt = value ∧
        ∀ j (hj : j < len), start ≤ j → j < k.val → b.bit j hj ≠ value := by
  refine ⟨findFrom_eq_some, fun ⟨hstart, hstop, hbit, hbefore⟩ => ?_⟩
  cases h : b.findFrom value start stop with
  | none => exact absurd hbit (findFrom_eq_none h k.isLt hstart hstop)
  | some i =>
    obtain ⟨histart, -, hibit, hibefore⟩ := findFrom_eq_some h
    have hki : i.val ≤ k.val := Nat.le_of_not_lt fun hlt => hibefore k.val k.isLt hstart hlt hbit
    have hik : k.val ≤ i.val := Nat.le_of_not_lt fun hlt => hbefore i.val i.isLt histart hlt hibit
    exact congrArg some (Fin.ext (Nat.le_antisymm hki hik))

theorem findFrom_of_le (h : stop ≤ start) : b.findFrom value start stop = none := by
  rw [findFrom, dif_neg (by omega)]

theorem findFrom_of_bit (hstop : start < stop) (hlen : start < len)
    (hbit : b.bit start hlen = value) : b.findFrom value start stop = some ⟨start, hlen⟩ :=
  findFrom_eq_some_iff.mpr
    ⟨Nat.le_refl _, hstop, hbit, fun _ _ hle hlt => absurd hle (Nat.not_le.mpr hlt)⟩

theorem findFrom_skip {next : Nat} (hle : start ≤ next)
    (hskip : ∀ j (hj : j < len), start ≤ j → j < next → b.bit j hj ≠ value) :
    b.findFrom value start stop = b.findFrom value next stop := by
  ext k
  simp only [findFrom_eq_some_iff]
  constructor
  · rintro ⟨hstart, hstop, hbit, hbefore⟩
    have hnext : next ≤ k.val := Nat.le_of_not_lt fun hlt => hskip k.val k.isLt hstart hlt hbit
    exact ⟨hnext, hstop, hbit, fun j hj hnj => hbefore j hj (by omega)⟩
  · rintro ⟨hnext, hstop, hbit, hbefore⟩
    refine ⟨by omega, hstop, hbit, fun j hj hsj hjk => ?_⟩
    by_cases hjn : j < next
    · exact hskip j hj hsj hjn
    · exact hbefore j hj (by omega) hjk

/-! Searching the words. -/

structure WordMissing where
  index : Nat

def readWord (b : Bitmap len) (word : Nat) : Except WordMissing UInt64 :=
  if h : word < (len + 63) / 64 then .ok b.words[word] else .error ⟨word⟩

def maskFrom (k : Nat) : UInt64 :=
  fillWord true <<< UInt64.ofNat k

/-- The bits of a word that have the value, as far as the mask lets them through. -/
def matching (value : Bool) (m w : UInt64) : UInt64 :=
  (if value then w else ~~~w) &&& m

/-- Reads one word after the other until one has a match, or `stop` is reached. The last word
may have a match at or after `stop`, in the padding for one. -/
def scanFrom (b : Bitmap len) (value : Bool) (stop word : Nat) (m : UInt64) :
    Except WordMissing (Option Nat) :=
  if word * 64 < stop then
    match b.readWord word with
    | .error e => .error e
    | .ok w =>
      if matching value m w = 0 then b.scanFrom value stop (word + 1) (fillWord true)
      else
        let i := word * 64 + (matching value m w).toBitVec.ctz.toNat
        .ok (if i < stop then some i else none)
  else .ok none
termination_by stop - word * 64

def scan (b : Bitmap len) (value : Bool) (start stop : Nat) : Except WordMissing (Option Nat) :=
  if min stop len ≤ start then .ok none
  else b.scanFrom value (min stop len) (start / 64) (maskFrom (start % 64))

theorem maskFrom_bit {k j : Nat} (hk : k < 64) (hj : j < 64) :
    (maskFrom k).toBitVec.getLsbD j = decide (k ≤ j) := by
  have hm : k % 18446744073709551616 % 64 = k := by omega
  by_cases h : k ≤ j
  · simp [maskFrom, hm, hj, h, fillWord_bit true (show j - k < 64 by omega)]
  · simp [maskFrom, hm, h]

theorem matching_bit {m w : UInt64} {j : Nat} (hj : j < 64) :
    (matching value m w).toBitVec.getLsbD j =
      (decide (w.toBitVec.getLsbD j = value) && m.toBitVec.getLsbD j) := by
  cases value <;> simp [matching, hj]

theorem maskFrom_zero : fillWord true = maskFrom 0 := by decide

section Word

variable {word k : Nat} {w : UInt64} (hw : b.readWord word = .ok w) (hk : k < 64)

include hw hk

theorem matching_iff {j : Nat} (hj : j < 64) (hlen : word * 64 + j < len) :
    (matching value (maskFrom k) w).toBitVec.getLsbD j = true ↔
      k ≤ j ∧ b.bit (word * 64 + j) hlen = value := by
  have hlt : word < (len + 63) / 64 := by omega
  rw [readWord, dif_pos hlt] at hw
  cases hw
  rw [matching_bit hj, maskFrom_bit hk hj, bit_eq]
  simp [show (word * 64 + j) / 64 = word by omega, show (word * 64 + j) % 64 = j by omega, and_comm]

theorem matching_of_bit {j : Nat} (hj : j < len) (hfirst : word * 64 + k ≤ j)
    (hlast : j < word * 64 + 64) (hbit : b.bit j hj = value) :
    (matching value (maskFrom k) w).toBitVec.getLsbD (j - word * 64) = true := by
  refine (matching_iff hw hk (by omega) (by omega)).mpr ⟨by omega, ?_⟩
  simpa only [show word * 64 + (j - word * 64) = j by omega] using hbit

theorem findFrom_of_no_match (hz : matching value (maskFrom k) w = 0) :
    b.findFrom value (word * 64 + k) stop = b.findFrom value ((word + 1) * 64 + 0) stop := by
  refine findFrom_skip (by omega) fun j hj hfirst hlast hbit => ?_
  have hmatch := matching_of_bit hw hk hj hfirst (by omega) hbit
  rw [hz] at hmatch
  simp at hmatch

theorem findFrom_of_match (hstop : stop ≤ len) (hz : matching value (maskFrom k) w ≠ 0) :
    let i := word * 64 + (matching value (maskFrom k) w).toBitVec.ctz.toNat
    (b.findFrom value (word * 64 + k) stop).map Fin.val = if i < stop then some i else none := by
  have hne : (matching value (maskFrom k) w).toBitVec ≠ 0#64 :=
    fun h => hz (UInt64.toBitVec_inj.mp h)
  have hlowest := BitVec.getLsbD_true_ctz_of_ne_zero hne
  have hlt := BitVec.lt_of_getLsbD hlowest
  have hkc : k ≤ (matching value (maskFrom k) w).toBitVec.ctz.toNat := by
    rw [matching_bit hlt, maskFrom_bit hk hlt, Bool.and_eq_true, decide_eq_true_eq,
      decide_eq_true_eq] at hlowest
    exact hlowest.2
  have hskip : b.findFrom value (word * 64 + k) stop =
      b.findFrom value (word * 64 + (matching value (maskFrom k) w).toBitVec.ctz.toNat) stop := by
    refine findFrom_skip (by omega) fun j hj hfirst hlast hbit => ?_
    have hmatch := matching_of_bit hw hk hj hfirst (by omega) hbit
    rw [BitVec.getLsbD_false_of_lt_ctz (by omega)] at hmatch
    cases hmatch
  dsimp only
  rw [hskip]
  split
  · next hi =>
    obtain ⟨-, hbit⟩ := (matching_iff hw hk hlt (by omega)).mp hlowest
    rw [findFrom_of_bit hi (by omega) hbit, Option.map_some]
  · next hi => rw [findFrom_of_le (by omega), Option.map_none]

end Word

/-- From any place on, word by word comes to the same as bit by bit. -/
theorem scanFrom_eq (hstop : stop ≤ len) {word k : Nat} {m : UInt64} (hk : k < 64)
    (hm : m = maskFrom k) :
    b.scanFrom value stop word m =
      .ok ((b.findFrom value (word * 64 + k) stop).map Fin.val) := by
  fun_induction scanFrom b value stop word m generalizing k with
  | case1 word m hlt e he =>
    rw [readWord, dif_pos (by omega)] at he
    cases he
  | case2 word m hlt w hw hz ih =>
    subst hm
    rw [ih (by decide) maskFrom_zero, findFrom_of_no_match hw hk hz]
  | case3 word m hlt w hw hz =>
    subst hm
    rw [findFrom_of_match hw hk hstop hz]
  | case4 word m hlt => rw [findFrom_of_le (by omega), Option.map_none]

theorem findFrom_min (b : Bitmap len) (value : Bool) (start stop : Nat) :
    b.findFrom value start (min stop len) = b.findFrom value start stop := by
  ext k
  have hk := k.isLt
  simp only [findFrom_eq_some_iff, Nat.lt_min, hk, and_true]

theorem scan_eq (b : Bitmap len) (value : Bool) (start stop : Nat) :
    b.scan value start stop = .ok ((b.findFrom value start stop).map Fin.val) := by
  rw [scan, ← findFrom_min b value start stop]
  split
  · next h => rw [findFrom_of_le h, Option.map_none]
  · rw [scanFrom_eq (Nat.min_le_right _ _) (Nat.mod_lt _ (by decide)) rfl, Nat.div_add_mod']

theorem scan_eq_ok {r : Option Nat} :
    b.scan value start stop = .ok r ↔ (b.findFrom value start stop).map Fin.val = r := by
  rw [scan_eq, Except.ok.injEq]

theorem scan_ne_error {e : WordMissing} : b.scan value start stop ≠ .error e := by
  rw [scan_eq]
  rintro ⟨⟩

/-! Searching for runs. -/

theorem lt_of_scan {i : Nat} (h : b.scan value start stop = .ok (some i)) :
    start ≤ i ∧ i < len := by
  obtain ⟨k, hk, rfl⟩ := Option.map_eq_some_iff.mp (scan_eq_ok.mp h)
  exact ⟨(findFrom_eq_some hk).1, k.isLt⟩

def scanRunFrom (b : Bitmap len) (value : Bool) (count candidate : Nat) :
    Except WordMissing (Option Nat) :=
  if candidate + count ≤ len then
    match hb : b.scan (!value) candidate (candidate + count) with
    | .error e => .error e
    | .ok none => .ok (some candidate)
    | .ok (some blocker) =>
      match hn : b.scan value (blocker + 1) len with
      | .error e => .error e
      | .ok none => .ok none
      | .ok (some next) =>
        have := lt_of_scan hb
        have := lt_of_scan hn
        b.scanRunFrom value count next
  else .ok none
termination_by len - candidate

def scanRun (b : Bitmap len) (value : Bool) (start count : Nat) :
    Except WordMissing (Option Nat) :=
  if count = 0 then .ok none
  else
    match b.scan value start len with
    | .error e => .error e
    | .ok none => .ok none
    | .ok (some candidate) => b.scanRunFrom value count candidate

theorem runFrom_of_none {count : Nat} (h : b.findFrom value start len = none) :
    b.runFrom value count start = none := by
  rw [runFrom]
  split
  · rfl
  · next hc => simp only [h, reduceCtorEq] at hc

theorem scanRunFrom_eq {count : Nat} {candidate : Fin len}
    (hc : b.findFrom value start len = some candidate) :
    b.scanRunFrom value count candidate.val = .ok ((b.runFrom value count start).map Fin.val) := by
  fun_induction runFrom b value count start generalizing candidate with
  | case1 start hn => simp only [hn, reduceCtorEq] at hc
  | case2 start k hk hfit hb =>
    obtain rfl : k = candidate := Option.some.inj (hk.symm.trans hc)
    have hscan : b.scan (!value) k.val (k.val + count) = .ok none := by rw [scan_eq, hb]; rfl
    rw [scanRunFrom, if_pos hfit]
    split
    · next he => exact absurd he scan_ne_error
    · rfl
    · next hi => simp only [hscan, reduceCtorEq, Except.ok.injEq] at hi
  | case3 start k hk hfit blocker hb hle hle' ih =>
    obtain rfl : k = candidate := Option.some.inj (hk.symm.trans hc)
    have hscan : b.scan (!value) k.val (k.val + count) = .ok (some blocker.val) := by
      rw [scan_eq, hb]
      rfl
    rw [scanRunFrom, if_pos hfit]
    split
    · next he => exact absurd he scan_ne_error
    · next hi => simp only [hscan, reduceCtorEq, Except.ok.injEq] at hi
    · next i hi =>
      obtain rfl : blocker.val = i := by
        simpa only [hscan, Except.ok.injEq, Option.some.injEq] using hi
      split
      · next he => exact absurd he scan_ne_error
      · next hn =>
        have hnone := Option.map_eq_none_iff.mp (scan_eq_ok.mp hn)
        rw [runFrom_of_none hnone, Option.map_none]
      · next hn =>
        obtain ⟨next, hnext, rfl⟩ := Option.map_eq_some_iff.mp (scan_eq_ok.mp hn)
        exact ih hnext
  | case4 start k hk hfit =>
    obtain rfl : k = candidate := Option.some.inj (hk.symm.trans hc)
    rw [scanRunFrom, if_neg hfit, Option.map_none]

theorem scanRun_eq (b : Bitmap len) (value : Bool) (start count : Nat) :
    b.scanRun value start count = .ok ((b.findRun value start count).map Fin.val) := by
  unfold scanRun findRun
  split
  · rfl
  · rw [scan_eq]
    cases hc : b.findFrom value start len with
    | none => rw [runFrom_of_none hc]; rfl
    | some candidate => exact scanRunFrom_eq hc

/-! What the searches answer. -/

/-- The places from `start` on with the value. -/
def places (b : Bitmap len) (value : Bool) (start : Nat) : Set Nat :=
  {i | start ≤ i ∧ b.get? i = some value}

/-- The places from `start` on where `count` bits with the value begin and end inside. -/
def runStarts (b : Bitmap len) (value : Bool) (start count : Nat) : Set Nat :=
  {s | start ≤ s ∧ s + count ≤ len ∧ ∀ i, s ≤ i → i < s + count → b.get? i = some value}

/-- An answer is the least of the places, and it is missing only if there are none. -/
structure Exact (ps : Set Nat) (answer : Option (Fin len)) : Prop where
  least : ∀ i, answer = some i ↔ IsLeast ps i.val
  absent : answer = none ↔ ps = ∅

theorem exact_of {ps : Set Nat} {answer : Option (Fin len)}
    (hsome : ∀ i, answer = some i → IsLeast ps i.val) (hnone : answer = none → ps = ∅) :
    Exact ps answer := by
  cases answer with
  | none =>
    rw [hnone rfl]
    exact ⟨fun i => ⟨nofun, fun h => h.1.elim⟩, iff_of_true rfl rfl⟩
  | some k =>
    have hk := hsome k rfl
    refine ⟨fun i => ⟨hsome i, fun h => congrArg some (Fin.ext (hk.unique h))⟩, nofun, ?_⟩
    rintro rfl
    exact hk.1.elim

theorem get?_eq_some_iff {i : Nat} :
    b.get? i = some value ↔ ∃ h : i < len, b.bit i h = value := by
  unfold get?
  split
  · next h => simp [h]
  · next h => simp [h]

theorem findFrom_exact (b : Bitmap len) (value : Bool) (start : Nat) :
    Exact (b.places value start) (b.findFrom value start len) := by
  refine exact_of (fun i hi => ?_) fun h => ?_
  · obtain ⟨hstart, -, hbit, hbefore⟩ := findFrom_eq_some hi
    refine ⟨⟨hstart, get?_eq_some_iff.mpr ⟨i.isLt, hbit⟩⟩, fun j ⟨hsj, hj⟩ => ?_⟩
    obtain ⟨hlen, hjbit⟩ := get?_eq_some_iff.mp hj
    exact Nat.le_of_not_lt fun hlt => hbefore j hlen hsj hlt hjbit
  · refine Set.eq_empty_of_forall_notMem fun j ⟨hsj, hj⟩ => ?_
    obtain ⟨hlen, hjbit⟩ := get?_eq_some_iff.mp hj
    exact findFrom_eq_none h hlen hsj hlen hjbit

theorem findRun_exact (b : Bitmap len) (value : Bool) (start : Nat) {count : Nat}
    (hcount : 0 < count) :
    Exact (b.runStarts value start count) (b.findRun value start count) := by
  have hfound : ∀ s ∈ b.runStarts value start count,
      ∃ k, b.findRun value start count = some k ∧ k.val ≤ s := by
    rintro s ⟨hstart, hfit, hrun⟩
    refine exists_findRun_le hcount hstart hfit fun j hj hsj hjs => ?_
    exact (get?_eq_some_iff.mp (hrun j hsj hjs)).2
  refine exact_of (fun i hi => ?_) fun h => ?_
  · obtain ⟨hstart, hfit, hrun⟩ := findRun_eq_some hi
    refine ⟨⟨hstart, hfit, fun j hij hji => ?_⟩, fun s hs => ?_⟩
    · exact get?_eq_some_iff.mpr ⟨by omega, hrun j (by omega) hij hji⟩
    · obtain ⟨k, hk, hle⟩ := hfound s hs
      rw [hi] at hk
      exact Option.some.inj hk ▸ hle
  · refine Set.eq_empty_of_forall_notMem fun s hs => ?_
    obtain ⟨k, hk, -⟩ := hfound s hs
    rw [h] at hk
    cases hk

/-- All searches of a bitmap are exact, and so are they on its words. -/
theorem searches_exact (b : Bitmap len) (start count : Nat) :
    Exact (b.places true start) (b.nextTrue start) ∧
    Exact (b.places false start) (b.nextFalse start) ∧
    (∀ value, (∀ s, b.findRun value start count = some s ↔
        0 < count ∧ IsLeast (b.runStarts value start count) s.val) ∧
      (b.findRun value start count = none ↔
        count = 0 ∨ b.runStarts value start count = ∅)) ∧
    b.scan true start len = .ok ((b.nextTrue start).map Fin.val) ∧
    b.scan false start len = .ok ((b.nextFalse start).map Fin.val) ∧
    ∀ value, b.scanRun value start count = .ok ((b.findRun value start count).map Fin.val) := by
  refine ⟨b.findFrom_exact true start, b.findFrom_exact false start, fun value => ?_,
    b.scan_eq true start len, b.scan_eq false start len,
    fun value => b.scanRun_eq value start count⟩
  rcases Nat.eq_zero_or_pos count with rfl | hcount
  · simp [findRun]
  · have hexact := b.findRun_exact value start hcount
    refine ⟨fun s => (hexact.least s).trans (and_iff_right hcount).symm, hexact.absent.trans ?_⟩
    exact (or_iff_right (Nat.ne_of_gt hcount)).symm

end PagedKernel.Bitmap
