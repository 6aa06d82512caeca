import PagedKernel.Range.Arithmetic
import PagedKernel.Space.Mmu

/-! Creating an address space and taking it down. Taking it down gives back
every frame the space owns: those of owned mappings, its tables and its
directory. -/

namespace PagedKernel.AddressSpace

def create : Call PagingError Machine AddressSpace := do
  match ← Machine.takeFrame with
  | none => throw .outOfFrames
  | some directory =>
    Machine.zeroFrame directory
    Call.record (.space (.created directory))
    return .fresh directory

def releaseEntries (owned : Nat) : List TableEntry → Op Machine Nat
  | [] => return owned
  | e :: rest => do
    if e.isBorrowed then releaseEntries owned rest
    else
      match ← Machine.freeFrame e.frame with
      | .ok () => releaseEntries (← lengthSum owned 1) rest
      | .error cause =>
        Op.record (.space (.ownedNotReleased e.frame cause))
        releaseEntries owned rest

def releaseTables (owned : Nat) : List Frame → Op Machine Nat
  | [] => return owned
  | table :: rest => do
    let entries ← Op.inspect fun m => do return (← m.ram.table table).present
    let owned ← releaseEntries owned entries
    if let .error cause := ← Machine.freeFrame table then
      Op.record (.space (.tableNotReleased table cause))
    releaseTables owned rest

def release (s : AddressSpace) : Op Machine Unit := do
  let tables ← Op.inspect fun m => do
    return (← m.ram.directory s.directory).present.map (·.2)
  let owned ← releaseTables 0 tables
  if let .error cause := ← Machine.freeFrame s.directory then
    Op.record (.space (.directoryNotReleased s.directory cause))
  Op.record (.space (.released s.directory owned))

end PagedKernel.AddressSpace
