import Mathlib.Tactic.Common
import PagedKernel.Sync.OnceCell

/-! The cell under re-entry. Requests are made of one cell in a row, and an initializer may
make requests of the same cell while it runs, each depending on the answers before it, and may
fail. Everything is noted as it happens, in one history: at most one value is ever written,
readers see it from then on and never before, and a writer that fails shuts the cell for
good. -/

namespace PagedKernel

namespace OnceCell

variable {α : Type}

/-! ### Requests and what they leave behind -/

/-- The requests anyone may make of the cell, an initializer included. -/
inductive Use (α : Type) where
  | set (value : α)
  | get
  | isReady

inductive Answer (α : Type) where
  | stored
  | handedBack (value : α)
  | contents (value? : Option α)
  | readiness (ready : Bool)

/-- What an initializer does: it uses the cell as the answers so far tell it to, and ends with
a value or, failing, with none. -/
inductive Initializer (α : Type) where
  | ends (made : Option α)
  | uses (use : Use α) (next : Answer α → Initializer α)

inductive Request (α : Type) where
  | plain (use : Use α)
  | getOrInit (init : Initializer α)

/-- What happens to a cell. The cell before and after is noted with each use. -/
inductive Happening (α : Type) where
  | used (use : Use α) (before : OnceCell α) (answer : Answer α) (after : OnceCell α)
  /-- An initializer is entered. -/
  | began
  /-- An initializer ends. A value it made is published with this. -/
  | ended (made : Option α)
  /-- A request for a value made on demand is answered. -/
  | answered (access : Access α)

abbrev Recording (α : Type) := StateM (List (Happening α))

def note (e : Happening α) : Recording α PUnit :=
  modify (· ++ [e])

def Use.answer : Use α → OnceCell α → Answer α × OnceCell α
  | set value, cell =>
    match cell.set value with
    | (.ok (), after) => (.stored, after)
    | (.error value, after) => (.handedBack value, after)
  | get, cell => (.contents cell.get?, cell)
  | isReady, cell => (.readiness cell.isReady, cell)

def Use.run (use : Use α) (cell : OnceCell α) : Recording α (Answer α × OnceCell α) := do
  let (answer, after) := use.answer cell
  note (.used use cell answer after)
  return (answer, after)

def Initializer.run : Initializer α → OnceCell α → Recording α (Option α × OnceCell α)
  | ends made, cell => do
    note (.ended made)
    return (made, cell)
  | uses use next, cell => do
    let (answer, cell) ← use.run cell
    (next answer).run cell

def Request.run : Request α → OnceCell α → Recording α (OnceCell α)
  | plain use, cell => do
    let (_, cell) ← use.run cell
    return cell
  | getOrInit init, cell => do
    let (access, cell) ← cell.getOrInit fun cell => do
      note .began
      init.run cell
    note (.answered access)
    return cell

def runAll : List (Request α) → OnceCell α → Recording α (OnceCell α)
  | [], cell => return cell
  | r :: rs, cell => do
    let cell ← r.run cell
    runAll rs cell

/-! ### Reading a history -/

def Happening.write? : Happening α → Option α
  | used (.set value) _ .stored _ => some value
  | ended made => made
  | _ => none

def writes (history : List (Happening α)) : List α :=
  history.filterMap Happening.write?

def Happening.running (now : Bool) : Happening α → Bool
  | began => true
  | ended _ => false
  | _ => now

def running (history : List (Happening α)) : Bool :=
  history.foldl Happening.running false

def Use.deferred : Use α → Answer α
  | set value => .handedBack value
  | get => .contents none
  | isReady => .readiness false

/-- A use with its answer, after what happened earlier: readers see what was written, and a
value is stored only if none was and no writer failed. A value not stored is handed back. -/
def Use.Lawful (earlier : List (Happening α)) (before : OnceCell α) (answer : Answer α)
    (after : OnceCell α) : Use α → Prop
  | get => answer = .contents (writes earlier).head? ∧ after = before
  | isReady => answer = .readiness (writes earlier).head?.isSome ∧ after = before
  | set v =>
    (answer = .stored ∧ after = ready v ∧ writes earlier = [] ∧ .ended none ∉ earlier) ∨
      (answer = .handedBack v ∧ after = before)

def Lawful (earlier : List (Happening α)) : Happening α → Prop
  | .used use before answer after =>
    use.Lawful earlier before answer after ∧
      (running earlier → answer = use.deferred ∧ after = before)
  | .began => writes earlier = []
  | .ended made => made.isSome → writes earlier = [] ∧ .ended none ∉ earlier
  | .answered access => ∀ v ∈ writes earlier, access = .value v

/-- A history of a cell, and the cell at its end. -/
structure WrittenOnce (history : List (Happening α)) (cell : OnceCell α) : Prop where
  once : (writes history).length ≤ 1
  published : cell.get? = (writes history).head?
  failed : .ended none ∈ history → writes history = []
  lawful : ∀ earlier e later, history = earlier ++ e :: later → Lawful earlier e

section

variable {history : List (Happening α)} {e : Happening α} {cell after : OnceCell α}

@[simp] theorem writes_concat :
    writes (history ++ [e]) = writes history ++ e.write?.toList := by
  cases h : e.write? <;> simp [writes, h]

@[simp] theorem running_concat : running (history ++ [e]) = e.running (running history) := by
  simp [running]

theorem run_note (e : Happening α) (history : List (Happening α)) :
    (note e).run history = ((), history ++ [e]) :=
  rfl

theorem run_bind {β γ : Type} {x : Recording α β} {f : β → Recording α γ} {b : β}
    {later : List (Happening α)} (h : x.run history = (b, later)) :
    (x >>= f).run history = (f b).run later := by
  rw [StateT.run_bind, h]
  rfl

/-! ### What a cell tells of its history -/

/-- What a cell tells of its history. One that is claimed is being written, or its writer has
failed; every other one has no writer. -/
structure Stands (cell : OnceCell α) (history : List (Happening α)) : Prop where
  writes : writes history = cell.get?.toList
  idle : cell ≠ claimed → running history = false
  kept : cell ≠ claimed → .ended none ∉ history

structure Inv (cell : OnceCell α) (history : List (Happening α)) : Prop where
  stands : cell.Stands history
  lawful : ∀ earlier e later, history = earlier ++ e :: later → Lawful earlier e

theorem inv_empty : Inv (empty : OnceCell α) [] where
  stands := ⟨rfl, fun _ => rfl, fun _ => List.not_mem_nil⟩
  lawful := by simp

theorem Inv.writtenOnce (h : Inv cell history) : WrittenOnce history cell where
  once := by
    rw [h.stands.writes]
    exact Option.length_toList_le
  published := by
    rw [h.stands.writes]
    exact Option.head?_toList.symm
  failed := by
    intro hfailed
    have hclaimed : cell = claimed := by
      by_contra hne
      exact h.stands.kept hne hfailed
    rw [h.stands.writes, hclaimed]
    rfl
  lawful := h.lawful

theorem Inv.note (h : Inv cell history) (he : Lawful history e)
    (hs : after.Stands (history ++ [e])) : Inv after (history ++ [e]) where
  stands := hs
  lawful := by
    intro earlier e' later heq
    rcases later.eq_nil_or_concat with rfl | ⟨kept, last, rfl⟩
    · obtain ⟨rfl, hlast⟩ := List.append_inj' heq rfl
      obtain rfl := List.singleton_inj.mp hlast
      exact he
    · have hconcat : history ++ [e] = (earlier ++ e' :: kept) ++ [last] := by simpa using heq
      exact h.lawful earlier e' kept (List.append_inj' hconcat rfl).1

/-! ### One use -/

theorem Use.answer_claimed (use : Use α) : use.answer claimed = (use.deferred, claimed) := by
  cases use <;> rfl

theorem Stands.lawful_use (h : cell.Stands history) (use : Use α) :
    Lawful history (.used use cell (use.answer cell).1 (use.answer cell).2) := by
  by_cases hclaimed : cell = claimed
  · subst hclaimed
    rw [use.answer_claimed]
    cases use <;> simp [Lawful, Use.Lawful, Use.deferred, h.writes, get?]
  · cases cell <;> cases use <;>
      simp_all [Lawful, Use.Lawful, Use.answer, OnceCell.set, get?, OnceCell.isReady, h.writes,
        h.idle, h.kept]

theorem Stands.use (h : cell.Stands history) (use : Use α) :
    (use.answer cell).2.Stands
      (history ++ [.used use cell (use.answer cell).1 (use.answer cell).2]) := by
  have hwrites := h.writes
  have hidle := h.idle
  have hkept := h.kept
  constructor <;> cases cell <;> cases use <;>
    simp_all [Use.answer, OnceCell.set, Happening.write?, Happening.running, get?]

theorem Inv.use (h : Inv cell history) (use : Use α) :
    Inv (use.answer cell).2
      (history ++ [.used use cell (use.answer cell).1 (use.answer cell).2]) :=
  h.note (h.stands.lawful_use use) (h.stands.use use)

/-! ### An initializer

It is entered on a claimed cell, and no use of a claimed cell changes it: so every answer it gets
is the deferred one, and what it makes in the end is the first write. -/

def outcome : Option α → OnceCell α
  | some v => ready v
  | none => claimed

theorem Inv.ended (h : Inv claimed history) (hkept : .ended none ∉ history) (made : Option α) :
    Inv (outcome made) (history ++ [.ended made]) := by
  have hnone : writes history = [] := h.stands.writes
  refine h.note (fun _ => ⟨hnone, hkept⟩) ?_
  constructor <;> cases made <;>
    simp [outcome, Happening.write?, Happening.running, get?, hnone, hkept]

theorem Initializer.run_inv (init : Initializer α) (h : Inv claimed history)
    (hkept : .ended none ∉ history) :
    ∃ made later, (init.run claimed).run history = ((made, claimed), later) ∧
      Inv (outcome made) later := by
  induction init generalizing history with
  | ends made => exact ⟨made, _, rfl, h.ended hkept made⟩
  | uses use next ih =>
    have hused := h.use use
    rw [use.answer_claimed] at hused
    obtain ⟨made, later, hrun, hlater⟩ := ih use.deferred hused (by simpa using hkept)
    refine ⟨made, later, ?_, hlater⟩
    simpa [Initializer.run, Use.run, OnceCell.note, use.answer_claimed] using hrun

/-! ### Requests -/

def Access.ofMade : Option α → Access α
  | some v => .value v
  | none => .failed

theorem ofMade_of_outcome {made : Option α} {v : α} (h : outcome made = ready v) :
    Access.ofMade made = .value v := by
  cases made with
  | none => cases h
  | some w =>
    obtain rfl : w = v := by simpa [outcome] using h
    rfl

theorem run_getOrInit_empty {init : Initializer α} {made : Option α} {later : List (Happening α)}
    (h : (init.run claimed).run (history ++ [.began]) = ((made, claimed), later)) :
    ((Request.getOrInit init).run empty).run history =
      (outcome made, later ++ [.answered (Access.ofMade made)]) := by
  let entered (cell : OnceCell α) : Recording α (Option α × OnceCell α) := do
    note .began
    init.run cell
  have hentered : (entered claimed).run history = ((made, claimed), later) :=
    (run_bind (run_note .began history)).trans h
  have hmade : (empty.getOrInit entered).run history =
      ((Access.ofMade made, outcome made), later) := by
    refine (run_bind hentered).trans ?_
    cases made <;> rfl
  exact run_bind hmade

theorem eq_ready_of_get? {v : α} (h : cell.get? = some v) : cell = ready v := by
  cases cell with
  | empty => cases h
  | claimed => cases h
  | ready w => exact congrArg ready (Option.some.inj h)

theorem Inv.answered (h : Inv cell history) {access : Access α}
    (ha : ∀ v, cell = ready v → access = .value v) :
    Inv cell (history ++ [.answered access]) := by
  refine h.note ?_ ?_
  · intro v hv
    rw [h.stands.writes, Option.mem_toList] at hv
    exact ha v (eq_ready_of_get? hv)
  · constructor
    · simpa [Happening.write?] using h.stands.writes
    · simpa [Happening.running] using h.stands.idle
    · simpa using h.stands.kept

theorem Inv.began (h : Inv empty history) : Inv claimed (history ++ [.began]) := by
  have hnone : writes history = [] := h.stands.writes
  refine h.note hnone ?_
  constructor <;> simp [Happening.write?, get?, hnone]

theorem Request.run_inv (r : Request α) (h : Inv cell history) :
    ∃ after later, (r.run cell).run history = (after, later) ∧ Inv after later := by
  cases r with
  | plain use => exact ⟨_, _, rfl, h.use use⟩
  | getOrInit init =>
    cases cell with
    | ready v => exact ⟨_, _, rfl, h.answered (by simp)⟩
    | claimed => exact ⟨_, _, rfl, h.answered (by simp)⟩
    | empty =>
      have hkept : .ended none ∉ history ++ [.began] := by simpa using h.stands.kept (by simp)
      obtain ⟨made, later, hrun, hlater⟩ := init.run_inv h.began hkept
      exact ⟨_, _, run_getOrInit_empty hrun, hlater.answered fun v => ofMade_of_outcome⟩

theorem runAll_inv (requests : List (Request α)) (h : Inv cell history) :
    ∃ after later, (runAll requests cell).run history = (after, later) ∧ Inv after later := by
  induction requests generalizing cell history with
  | nil => exact ⟨cell, history, rfl, h⟩
  | cons r rs ih =>
    obtain ⟨mid, midway, hr, hmid⟩ := r.run_inv h
    obtain ⟨after, later, hrs, hafter⟩ := ih hmid
    refine ⟨after, later, ?_, hafter⟩
    exact (run_bind hr).trans hrs

end

/-- Whatever is asked of a new cell, and whatever its initializers do with it meanwhile, it is
written at most once. -/
theorem written_once (requests : List (Request α)) :
    let (cell, history) := (runAll requests empty).run []
    WrittenOnce history cell := by
  obtain ⟨cell, history, hrun, h⟩ := runAll_inv requests inv_empty
  rw [hrun]
  exact h.writtenOnce

-- An initializer that tries to write the cell itself has its own value published.
example :
    writes ((runAll [.getOrInit (.uses (.set 5) fun _ => .ends (some 7)), .plain (.set 9)]
      empty).run []).2 = [7] := rfl

end OnceCell

end PagedKernel
