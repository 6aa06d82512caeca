import PagedKernel.Io.Read
import PagedKernel.Kernel.Error

/-! The queue of outstanding reads, in the order they were submitted. Reads on
one descriptor share a stream position, so only the oldest of them is polled;
when it ends, the next one on the descriptor gets its turn in the same pass. -/

namespace PagedKernel

structure QueueEntry where
  pid : ProcessId
  read : Read

structure Completion where
  pid : ProcessId
  fd : Fd
  result : ReadResult

structure ReadQueue where
  entries : List QueueEntry

namespace ReadQueue

variable {δ μ : Type}

def empty : ReadQueue := ⟨[]⟩

def size (q : ReadQueue) : Nat :=
  q.entries.length

def pendingFor (q : ReadQueue) (pid : ProcessId) : Nat :=
  q.entries.countP fun e => e.pid = pid

/-- Whether a queued read of a process borrows pages of a range. -/
def borrows (q : ReadQueue) (pid : ProcessId) (va : VirtualAddress) (length : Nat) : Bool :=
  q.entries.any fun e => e.pid = pid && e.read.borrows va length

def submit (pid : ProcessId) (r : Read) : Op ReadQueue Unit := do
  Op.record (.queue (.queued pid r.fd))
  Op.modify fun q => ⟨q.entries ++ [⟨pid, r⟩]⟩

def dropEvents (entries : List QueueEntry) : List Event :=
  entries.filterMap fun e => e.read.dropEvent?

def describe (slots : Slots) (q : ReadQueue) : String :=
  Text.record "IoQueue" [("entries", Text.sequence (q.entries.map fun e =>
    Text.record "IoQueueEntry" [("process_id", debug e.pid), ("op", e.read.describe slots)]))]

/-! While a pass runs, the queue holds the entries kept so far. -/

def keep (e : QueueEntry) : Op (ReadQueue × IoWorld δ μ) Unit :=
  Op.modify fun ⟨q, world⟩ => (⟨q.entries ++ [e]⟩, world)

def takeEntries : Op (ReadQueue × IoWorld δ μ) (List QueueEntry) :=
  Op.update fun ⟨q, world⟩ => (q.entries, (empty, world))

/-- Runs a step of an entry's read; after a fault `salvage` decides what becomes
of the entry. -/
def withRead {α : Type} (e : QueueEntry)
    (salvage : QueueEntry → Traced (ReadQueue × IoWorld δ μ) → Traced (ReadQueue × IoWorld δ μ))
    (x : Op (Read × IoWorld δ μ) α) : Op (ReadQueue × IoWorld δ μ) (α × QueueEntry) :=
  fun ⟨(q, world), events⟩ =>
    match x ⟨(e.read, world), events⟩ with
    | .ok a ⟨(r, world), events⟩ => .ok (a, { e with read := r }) ⟨(q, world), events⟩
    | .error f ⟨(r, world), events⟩ =>
      .error f (salvage { e with read := r } ⟨(q, world), events⟩)

def completionOf (e : QueueEntry) : Op (ReadQueue × IoWorld δ μ) Completion := do
  match ← Op.read fun s => s.2.slots.get? e.read.slot with
  | some result => return ⟨e.pid, e.read.fd, result⟩
  | none =>
    Op.record (.queue (.endedWithoutResult e.pid e.read.fd))
    return ⟨e.pid, e.read.fd, .error .cancelled⟩

/-- Gives an entry up. A loan it still held would be lost. -/
def discard (e : QueueEntry) : Op (ReadQueue × IoWorld δ μ) Unit := do
  if let some event := e.read.dropEvent? then
    Op.record event

/-- Polls a read and issues it when it became ready. -/
def drive (backend : Backend δ μ) : Op (Read × IoWorld δ μ) ReadState := do
  let state ← Read.poll backend
  if state = .ready then Read.issue backend else return state

/-- After a fault the entry and those behind it stay queued. -/
def requeue (rest : List QueueEntry) (e : QueueEntry) :
    Traced (ReadQueue × IoWorld δ μ) → Traced (ReadQueue × IoWorld δ μ)
  | ⟨(q, world), events⟩ => ⟨(⟨q.entries ++ e :: rest⟩, world), events⟩

/-- Polls entries in order. `claimed` holds the descriptors that an earlier entry
still occupies. -/
def pollEntries (backend : Backend δ μ) (claimed : List Fd) (ended : List Completion) :
    List QueueEntry → Op (ReadQueue × IoWorld δ μ) (List Completion)
  | [] => return ended
  | e :: rest => do
    if e.read.fd ∈ claimed then
      keep e
      pollEntries backend claimed ended rest
    else
      let (state, e) ← withRead e (requeue rest) (drive backend)
      if state.isTerminal then
        let completion ← completionOf e
        discard e
        pollEntries backend claimed (ended ++ [completion]) rest
      else
        keep e
        pollEntries backend (e.read.fd :: claimed) ended rest

/-- Polls every read once; those that ended leave the queue and are reported in
order. -/
def pollAll (backend : Backend δ μ) : Op (ReadQueue × IoWorld δ μ) (List Completion) := do
  let ended ← pollEntries backend [] [] (← takeEntries)
  unless ended.isEmpty do
    Op.record (.queue (.finished ended.length (← Op.read fun s => s.1.size)))
  return ended

/-- After a fault nothing stays queued: the entry, those behind it and those kept
so far are given up. -/
def abandon (rest : List QueueEntry) (e : QueueEntry) :
    Traced (ReadQueue × IoWorld δ μ) → Traced (ReadQueue × IoWorld δ μ)
  | ⟨(q, world), events⟩ => ⟨(empty, world), events ++ dropEvents (e :: rest ++ q.entries)⟩

def cancelEntries (mapper : AliasMapper μ) (selected : QueueEntry → Bool)
    (ended : List Completion) :
    List QueueEntry → Op (ReadQueue × IoWorld δ μ) (List Completion)
  | [] => return ended
  | e :: rest => do
    if selected e then
      let (_, e) ← withRead e (abandon rest) (Read.cancel mapper)
      let completion ← completionOf e
      discard e
      cancelEntries mapper selected (ended ++ [completion]) rest
    else
      keep e
      cancelEntries mapper selected ended rest

def cancelWhere (mapper : AliasMapper μ) (selected : QueueEntry → Bool) :
    Op (ReadQueue × IoWorld δ μ) (List Completion) := do
  let ended ← cancelEntries mapper selected [] (← takeEntries)
  unless ended.isEmpty do
    Op.record (.queue (.cancelled ended.length))
  return ended

def cancelProcess (mapper : AliasMapper μ) (pid : ProcessId) :
    Op (ReadQueue × IoWorld δ μ) (List Completion) :=
  cancelWhere mapper fun e => e.pid = pid

def cancelDescriptor (mapper : AliasMapper μ) (fd : Fd) :
    Op (ReadQueue × IoWorld δ μ) (List Completion) :=
  cancelWhere mapper fun e => e.read.fd = fd

end ReadQueue
end PagedKernel
