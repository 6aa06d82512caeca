import PagedKernel.Text.Debug

/-! A value behind a lock. Dropping a guard frees the lock. An attempt that
finds the lock taken has its guard prepared already, and drops it: the lock is
free afterwards, although the guard that took it is still alive. -/

namespace PagedKernel

structure SpinLock (α : Type) where
  locked : Bool
  value : α

namespace SpinLock

variable {α β : Type}

def ofValue (value : α) : SpinLock α := ⟨false, value⟩

def unlock (lock : SpinLock α) : SpinLock α :=
  { lock with locked := false }

def lock? : SpinLock α → Option (SpinLock α)
  | ⟨false, value⟩ => some ⟨true, value⟩
  | ⟨true, _⟩ => none

def tryLock (lock : SpinLock α) : Bool × SpinLock α :=
  match lock.lock? with
  | some held => (true, held)
  | none => (false, lock.unlock)

def replace (value : α) (lock : SpinLock α) : α × SpinLock α :=
  (lock.value, { lock with value := value })

def withLock (f : SpinLock α → β × SpinLock α) (lock : SpinLock α) : Option (β × SpinLock α) :=
  lock.lock?.map fun held =>
    match f held with
    | (b, after) => (b, after.unlock)

theorem tryLock_eq_true_iff (lock : SpinLock α) : lock.tryLock.1 = true ↔ lock.locked = false := by
  obtain ⟨locked, value⟩ := lock
  cases locked <;> simp [tryLock, lock?]

theorem tryLock_locked (lock : SpinLock α) : lock.tryLock.2.locked = lock.tryLock.1 := by
  obtain ⟨locked, value⟩ := lock
  cases locked <;> rfl

theorem withLock_locked {f : SpinLock α → β × SpinLock α} {lock after : SpinLock α} {b : β}
    (h : lock.withLock f = some (b, after)) : lock.locked = false ∧ after.locked = false := by
  obtain ⟨locked, value⟩ := lock
  cases locked with
  | false =>
    simp only [withLock, lock?, Option.map_some, Option.some.injEq, Prod.mk.injEq] at h
    exact ⟨rfl, by rw [← h.2]; rfl⟩
  | true => simp [withLock, lock?] at h

instance : Debug (SpinLock α) where
  debug lock := "SpinLock \x7b locked: " ++ debug lock.locked ++ ", .. \x7d"

end SpinLock
end PagedKernel
