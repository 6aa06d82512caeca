import Mathlib.Data.Finset.Max
import Mathlib.Data.Fintype.Basic
import PagedKernel.Proofs.FramePool.Runs
import PagedKernel.Proofs.Replay

/-! The hint of a pool is never seen. A pool answers like one that keeps a set of frames and
nothing else, where the least of them is taken, and the frames it has available are that set. -/

namespace PagedKernel

open FramePool (Request)

inductive PoolCall where
  | release (first count : Nat)
  | request (q : Request)

namespace PoolCall

inductive Returns (f : Frame) : PoolCall → Prop
  | giveBack : Returns f (.request (.giveBack f))
  | release {first count : Nat} (hfirst : first ≤ f.index.val)
      (hlast : f.index.val < first + count) : Returns f (.release first count)

end PoolCall

inductive PoolAnswer where
  | released
  | frame (f? : Option Frame)
  | outcome (r : Except FrameError Unit)

def FramePool.ask (pool : FramePool) : PoolCall → PoolAnswer × FramePool
  | .release first count => (.released, pool.releaseRange first count)
  | .request .take => (.frame pool.alloc.1, pool.alloc.2)
  | .request (.giveBack f) => (.outcome (pool.free f).1, (pool.free f).2)
  | .request (.reserve f) => (.outcome (pool.reserve f).1, (pool.reserve f).2)

/-- The numbers of the frames that are available: a pool without a hint. -/
abbrev FrameSet := Finset (Fin pageCount)

namespace FrameSet

def least (s : FrameSet) : Option (Fin pageCount) :=
  if h : s.Nonempty then some (s.min' h) else none

def take (s : FrameSet) : Option Frame × FrameSet :=
  match s.least with
  | none => (none, s)
  | some i => (some ⟨i⟩, s.erase i)

def ask (s : FrameSet) : PoolCall → PoolAnswer × FrameSet
  | .release first count =>
    (.released, s ∪ Finset.univ.filter fun i => first ≤ i.val ∧ i.val < first + count)
  | .request .take => (.frame s.take.1, s.take.2)
  | .request (.giveBack f) =>
    if f.index ∈ s then (.outcome (.error (.doubleFree f)), s)
    else (.outcome (.ok ()), insert f.index s)
  | .request (.reserve f) => (.outcome (.ok ()), s.erase f.index)

theorem least_eq_none_iff {s : FrameSet} : s.least = none ↔ s = ∅ := by
  rw [least]
  split
  · next h => simp [h.ne_empty]
  · next h => exact iff_of_true rfl (Finset.not_nonempty_iff_eq_empty.mp h)

theorem least_eq_some_iff {s : FrameSet} {i : Fin pageCount} :
    s.least = some i ↔ IsLeast (s : Set (Fin pageCount)) i := by
  rw [least]
  split
  · next h =>
    rw [Option.some.injEq]
    exact ⟨fun hi => hi ▸ s.isLeast_min' h, fun hi => (s.isLeast_min' h).unique hi⟩
  · next h => exact ⟨nofun, fun hi => absurd ⟨i, hi.1⟩ h⟩

theorem take_of_none {s : FrameSet} (h : s.least = none) : s.take = (none, s) := by
  rw [take, h]

theorem take_of_some {s : FrameSet} {i : Fin pageCount} (h : s.least = some i) :
    s.take = (some ⟨i⟩, s.erase i) := by
  rw [take, h]

end FrameSet

namespace FramePool

variable {pool : FramePool} {f : Frame}

def numbers (pool : FramePool) : FrameSet :=
  Finset.univ.filter fun i => pool.isAvailable ⟨i⟩ = true

theorem mem_numbers {i : Fin pageCount} : i ∈ pool.numbers ↔ pool.isAvailable ⟨i⟩ = true := by
  simp only [numbers, Finset.mem_filter, Finset.mem_univ, true_and]

theorem index_mem_numbers : f.index ∈ pool.numbers ↔ pool.isAvailable f = true :=
  mem_numbers

theorem least_numbers (hs : pool.Sound) :
    pool.numbers.least = pool.alloc.1.map Frame.index := by
  cases ha : pool.alloc.1 with
  | none =>
    rw [Option.map_none, FrameSet.least_eq_none_iff]
    refine Finset.eq_empty_of_forall_notMem fun i hi => ?_
    rw [mem_numbers, (alloc_eq_none_iff hs).mp ha] at hi
    cases hi
  | some f =>
    obtain ⟨hf, hle⟩ := (alloc_eq_some_iff hs).mp ha
    rw [Option.map_some, FrameSet.least_eq_some_iff]
    exact ⟨mem_numbers.mpr hf, fun i hi => hle ⟨i⟩ (mem_numbers.mp hi)⟩

theorem numbers_release (pool : FramePool) (first count : Nat) :
    (pool.releaseRange first count).numbers =
      pool.numbers ∪ Finset.univ.filter fun i => first ≤ i.val ∧ i.val < first + count := by
  ext i
  simp only [mem_numbers, isAvailable_releaseRange, Finset.mem_union, Finset.mem_filter,
    Finset.mem_univ, true_and]

theorem numbers_eq_erase {pool' : FramePool}
    (h : ∀ g, pool'.isAvailable g = true ↔ pool.isAvailable g = true ∧ g ≠ f) :
    pool'.numbers = pool.numbers.erase f.index := by
  obtain ⟨k⟩ := f
  ext i
  simp only [mem_numbers, h, Finset.mem_erase, ne_eq, Frame.mk.injEq, and_comm]

theorem numbers_eq_insert {pool' : FramePool}
    (h : ∀ g, pool'.isAvailable g = true ↔ pool.isAvailable g = true ∨ g = f) :
    pool'.numbers = insert f.index pool.numbers := by
  obtain ⟨k⟩ := f
  ext i
  simp only [mem_numbers, h, Finset.mem_insert, Frame.mk.injEq, or_comm]

theorem ask_numbers (hs : pool.Sound) (c : PoolCall) :
    pool.numbers.ask c = ((pool.ask c).1, (pool.ask c).2.numbers) := by
  cases c with
  | release first count => simp only [ask, FrameSet.ask, numbers_release]
  | request q =>
    cases q with
    | take =>
      have hleast := least_numbers hs
      simp only [ask, FrameSet.ask]
      cases ha : pool.alloc.1 with
      | none =>
        rw [ha, Option.map_none] at hleast
        rw [FrameSet.take_of_none hleast, (alloc_eq_none ha).1]
      | some f =>
        rw [ha, Option.map_some] at hleast
        rw [FrameSet.take_of_some hleast, numbers_eq_erase (alloc_eq_some ha).2.1]
    | giveBack f =>
      simp only [ask, FrameSet.ask, index_mem_numbers]
      cases hf : pool.isAvailable f with
      | false =>
        obtain ⟨hok, -, havailable⟩ := free_of_taken hs hf
        rw [if_neg Bool.false_ne_true, hok, numbers_eq_insert havailable]
      | true => rw [if_pos rfl, free_of_available hs hf]
    | reserve f =>
      obtain ⟨hok, -, havailable⟩ := reserve_sound hs f
      simp only [ask, FrameSet.ask, hok, numbers_eq_erase havailable]

theorem ask_request (pool : FramePool) (q : Request) :
    (pool.ask (.request q)).2 = pool.serve q := by
  cases q <;> rfl

theorem ask_sound (hs : pool.Sound) (c : PoolCall) : (pool.ask c).2.Sound := by
  cases c with
  | release first count => exact releaseRange_sound hs first count
  | request q =>
    rw [ask_request]
    exact serve_sound hs q

theorem foretold : Foretold ask FrameSet.ask numbers Sound where
  keeps _ c hs := ask_sound hs c
  answer _ c hs := (congrArg Prod.fst (ask_numbers hs c)).symm
  pace _ c hs := (congrArg Prod.snd (ask_numbers hs c)).symm

theorem isAvailable_of_ask (hs : pool.Sound) {c : PoolCall}
    (h : (pool.ask c).2.isAvailable f = true) : pool.isAvailable f = true ∨ c.Returns f := by
  cases c with
  | release first count =>
    exact ((isAvailable_releaseRange pool first count f).mp h).imp_right fun h => .release h.1 h.2
  | request q =>
    rw [ask_request] at h
    refine (isAvailable_of_serve hs h).imp_right ?_
    rintro rfl
    exact .giveBack

theorem isAvailable_of_replay (hs : pool.Sound) {calls : List PoolCall}
    (h : (replay ask pool calls).2.isAvailable f = true) :
    pool.isAvailable f = true ∨ ∃ c ∈ calls, c.Returns f := by
  induction calls generalizing pool with
  | nil => exact .inl h
  | cons c calls ih =>
    rcases ih (ask_sound hs c) h with hasked | ⟨d, hd, hreturns⟩
    · exact (isAvailable_of_ask hs hasked).imp_right fun hc => ⟨c, List.mem_cons_self, hc⟩
    · exact .inr ⟨d, List.mem_cons_of_mem _ hd, hreturns⟩

theorem reserve_again (hs : pool.Sound) (f : Frame) :
    (pool.reserve f).2.reserve f = (.ok (), (pool.reserve f).2) := by
  obtain ⟨frames, hint, limit⟩ := pool
  have hl : ¬ limit ≤ f.index.val := hs.managed f
  simp only [reserve, if_neg hl, Bitmap.write_again]

inductive Origin where
  | empty
  | seeded (map : BootMap) (reservedEnd : PhysicalAddress)

def Origin.start : Origin → FramePool
  | empty => .empty
  | seeded map reservedEnd => (Seeding.ofBootMap map reservedEnd).pool

theorem Origin.sound (o : Origin) : o.start.Sound := by
  cases o with
  | empty => exact empty_sound
  | seeded map reservedEnd => exact ofBootMap_sound map reservedEnd

/-- The hint is not seen in any series of calls. A frame that is taken twice was returned in
between. -/
theorem hint_unseen (o : Origin) (calls : List PoolCall) :
    let pool := (replay ask o.start calls).2
    let plain := replay FrameSet.ask o.start.numbers calls
    (replay ask o.start calls).1 = plain.1 ∧ pool.numbers = plain.2 ∧
      (∀ f, (pool.reserve f).2.reserve f = (.ok (), (pool.reserve f).2)) ∧
      ∀ f between, pool.alloc.1 = some f →
        (replay ask pool.alloc.2 between).2.alloc.1 = some f →
        ∃ c ∈ between, c.Returns f := by
  obtain ⟨hsound, hanswers, hnumbers⟩ := foretold.throughout o.sound calls
  refine ⟨hanswers, hnumbers, reserve_again hsound, fun f between hfirst hsecond => ?_⟩
  have htaken := ((alloc_eq_some hfirst).2.1 f).not.mpr fun h => h.2 rfl
  obtain ⟨hagain, -, -⟩ := alloc_eq_some hsecond
  exact (isAvailable_of_replay (alloc_sound hsound) hagain).resolve_left htaken

end FramePool
end PagedKernel
