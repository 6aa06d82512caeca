import PagedKernel.Text.Debug

/-! A cell that is written at most once. A writer first claims the cell and
then publishes the value; while the claim is held the cell reads as empty and
every other write is rejected. -/

namespace PagedKernel

inductive OnceCell (α : Type) where
  | empty
  /-- A writer holds the claim. -/
  | claimed
  | ready (value : α)
  deriving DecidableEq

namespace OnceCell

variable {α : Type}

instance : Inhabited (OnceCell α) := ⟨empty⟩

def get? : OnceCell α → Option α
  | ready value => some value
  | _ => none

def isReady (cell : OnceCell α) : Bool :=
  cell.get?.isSome

/-- Stores a value, or hands it back. -/
def set (value : α) : OnceCell α → Except α Unit × OnceCell α
  | empty => (.ok (), ready value)
  | cell => (.error value, cell)

inductive Access (α : Type) where
  | value (a : α)
  /-- Making the value failed; the claim is never given back. -/
  | failed
  /-- The value is being made elsewhere; there is nothing to do but wait. -/
  | blocked

/-- The value, made by `init` if there is none. `init` runs while the claim is
held and may use the cell itself. -/
def getOrInit {m : Type → Type} [Monad m] (init : OnceCell α → m (Option α × OnceCell α)) :
    OnceCell α → m (Access α × OnceCell α)
  | ready value => return (.value value, ready value)
  | claimed => return (.blocked, claimed)
  | empty => do
    match ← init claimed with
    | (some value, _) => return (.value value, ready value)
    | (none, cell) => return (.failed, cell)

@[simp] theorem get?_ready (value : α) : (ready value).get? = some value := rfl

theorem set_of_not_empty {cell : OnceCell α} (value : α) (h : cell ≠ empty) :
    cell.set value = (.error value, cell) := by
  cases cell with
  | empty => exact absurd rfl h
  | claimed => rfl
  | ready a => rfl

theorem get?_set_of_get? {cell : OnceCell α} {a : α} (value : α) (h : cell.get? = some a) :
    (cell.set value).2.get? = some a := by
  cases cell with
  | empty => cases h
  | claimed => cases h
  | ready b => exact h

instance [Debug α] : Debug (OnceCell α) where
  debug
    | ready value => Text.tuple "SyncOnceCell" [debug value]
    | _ => "SyncOnceCell(<uninit>)"

end OnceCell
end PagedKernel
