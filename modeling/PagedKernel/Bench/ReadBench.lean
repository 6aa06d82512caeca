import PagedKernel.Bench.ScriptedDevice
import PagedKernel.Io.Queue

/-! A bench for reads: the scripted device, reads by number, and the queue they
can be moved to. Slots may carry a label, so that several reads share one. The
mapper that lends buffers stands beside the bench. -/

namespace PagedKernel

structure ReadBench where
  device : ScriptedDevice.State
  slots : Slots
  labelled : List (Nat × SlotId)
  /-- Reads by number. The number of a read that is gone stays used. -/
  reads : Array (Option Read)
  queue : ReadQueue

namespace ReadBench

variable {μ α : Type}

def initial : ReadBench :=
  ⟨.initial, .empty, [], #[], .empty⟩

def clearCalls (b : ReadBench) : ReadBench :=
  { b with device := b.device.clearCalls }

def read? (b : ReadBench) (n : Nat) : Option Read :=
  b.reads[n]?.join

/-- The slot with a label; a new one if there is none, or no label. -/
def slot (label? : Option Nat) (b : ReadBench) : SlotId × ReadBench :=
  match label?.bind fun label => b.labelled.lookup label with
  | some id => (id, b)
  | none =>
    let (id, slots) := b.slots.handOut
    (id, { b with slots, labelled := (label?.map (·, id)).toList ++ b.labelled })

def dropEvents (b : ReadBench) : List Event :=
  ReadQueue.dropEvents b.queue.entries ++ b.reads.toList.filterMap fun r => r.bind Read.dropEvent?

/-! Parts of the bench, with the mapper where it is needed. -/

def queuePart : Focus ReadBench ReadQueue :=
  ⟨fun b => (b.queue, fun queue => { b with queue })⟩

def mapperPart : Focus (μ × ReadBench) μ :=
  ⟨fun (mapper, b) => (mapper, fun mapper => (mapper, b))⟩

def readPart (n : Nat) (r : Read) :
    Focus (μ × ReadBench) (Read × IoWorld ScriptedDevice.State μ) :=
  ⟨fun (mapper, ⟨device, slots, labelled, reads, queue⟩) => ((r, ⟨device, mapper, slots⟩),
    fun (r, ⟨device, mapper, slots⟩) =>
      (mapper, ⟨device, slots, labelled, reads.setIfInBounds n (some r), queue⟩))⟩

def readsPart : Focus (μ × ReadBench) (ReadQueue × IoWorld ScriptedDevice.State μ) :=
  ⟨fun (mapper, ⟨device, slots, labelled, reads, queue⟩) => ((queue, ⟨device, mapper, slots⟩),
    fun (queue, ⟨device, mapper, slots⟩) =>
      (mapper, ⟨device, slots, labelled, reads, queue⟩))⟩

def addRead (r : Option Read) : Op (μ × ReadBench) Nat :=
  Op.update fun (mapper, b) => (b.reads.size, (mapper, { b with reads := b.reads.push r }))

/-- Prepares a read and answers its number. A refused read uses up a number
too. -/
def prepare (mapper : AliasMapper μ) (label? : Option Nat) (fd : Fd) (user : VirtualAddress)
    (count : Nat) : Op (μ × ReadBench) (Except AliasError Nat) := do
  let id ← Op.update fun (mapper, b) => ((b.slot label?).1, (mapper, (b.slot label?).2))
  let made ← Op.zoom mapperPart (Read.prepare mapper fd user count id).run
  let n ← addRead made.toOption
  return made.map fun _ => n

def withRead (n : Nat) (x : Op (Read × IoWorld ScriptedDevice.State μ) α) :
    Op (μ × ReadBench) (Option α) := do
  match ← Op.read fun s => s.2.read? n with
  | none => return none
  | some r => return some (← Op.zoom (readPart n r) x)

def forget (n : Nat) : Op ReadBench Unit :=
  Op.modify fun b => { b with reads := b.reads.setIfInBounds n none }

def submit (n : Nat) (pid : ProcessId) : Op ReadBench (Option Unit) := do
  match ← Op.read fun b => b.read? n with
  | none => return none
  | some r =>
    forget n
    Op.zoom queuePart (ReadQueue.submit pid r)
    return some ()

def recordAll : List Event → Op ReadBench Unit
  | [] => return ()
  | e :: rest => do
    Op.record e
    recordAll rest

def drop (n : Nat) : Op ReadBench (Option Unit) := do
  match ← Op.read fun b => b.read? n with
  | none => return none
  | some r =>
    forget n
    recordAll r.dropEvent?.toList
    return some ()

def dropQueue : Op ReadBench Unit := do
  let entries ← Op.update fun b => (b.queue.entries, { b with queue := .empty })
  recordAll (ReadQueue.dropEvents entries)

end ReadBench
end PagedKernel
