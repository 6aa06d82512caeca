import PagedKernel.Sync.SpinLock

/-! A bench for the lock: the lock with the guards taken on it that are still
alive, the last one first. -/

namespace PagedKernel

structure Guards (α : Type) where
  lock : SpinLock α
  alive : Nat

namespace Guards

variable {α β : Type}

def ofValue (value : α) : Guards α := ⟨.ofValue value, 0⟩

/-- Takes the lock; nothing while a guard is alive, since the wait would not
end. -/
def take? (g : Guards α) : Option (Guards α) :=
  if g.alive = 0 then g.lock.lock?.map (⟨·, 1⟩) else none

def tryTake (g : Guards α) : Bool × Guards α :=
  (g.lock.tryLock.1, ⟨g.lock.tryLock.2, g.alive + g.lock.tryLock.1.toNat⟩)

def drop (g : Guards α) : Bool × Guards α :=
  if g.alive = 0 then (false, g) else (true, ⟨g.lock.unlock, g.alive - 1⟩)

def read? (g : Guards α) : Option α :=
  if g.alive = 0 then none else some g.lock.value

def write? (value : α) (g : Guards α) : Option α × Guards α :=
  if g.alive = 0 then (none, g)
  else (some g.lock.value, { g with lock := (g.lock.replace value).2 })

def withLock (f : SpinLock α → β × SpinLock α) (g : Guards α) : Option (β × Guards α) :=
  if g.alive = 0 then (g.lock.withLock f).map fun r => (r.1, ⟨r.2, 0⟩) else none

/-- Puts a value in place, for who owns the lock: nothing while a guard is
alive. -/
def exchange? (value : α) (g : Guards α) : Option α × Guards α :=
  if g.alive = 0 then (some g.lock.value, { g with lock := (g.lock.replace value).2 })
  else (none, g)

end Guards
end PagedKernel
