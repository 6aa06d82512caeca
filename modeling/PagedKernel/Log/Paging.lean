import PagedKernel.Address.Physical
import PagedKernel.Log.Level
import PagedKernel.Space.Error

/-! What the frame pool, an address space and the mapping of ranges report. -/

namespace PagedKernel

inductive FrameEvent where
  | seeded (available regions : Nat)
  | leftUnmanaged (frames : Nat)
  | taken (frame : Frame)
  | returned (frame : Frame)

namespace FrameEvent

def level : FrameEvent → Level
  | seeded .. => .debug
  | leftUnmanaged .. => .debug
  | taken .. => .trace
  | returned .. => .trace

def message : FrameEvent → String
  | seeded available regions =>
    s!"frames: {available} available ({available * 4} KiB) from {regions} usable region(s)"
  | leftUnmanaged frames =>
    s!"frames: {frames} usable frame(s) above the identity window left unmanaged"
  | taken frame => s!"frames: alloc {frame}"
  | returned frame => s!"frames: free {frame}"

end FrameEvent

inductive SpaceEvent where
  | created (directory : Frame)
  | mapped (page : Page) (frame : Frame) (writable user borrowed : Bool)
  | tableLinked (table : Frame) (slot : Nat)
  | tableNotFreed (table : Frame) (cause : FrameError)
  | tableReleased (table : Frame) (slot : Nat)
  | pageNotFreed (page : Nat) (frame : Frame) (cause : FrameError)
  | unmapped (pages start : Nat)
  | ownedNotReleased (frame : Frame) (cause : FrameError)
  | tableNotReleased (table : Frame) (cause : FrameError)
  | directoryNotReleased (directory : Frame) (cause : FrameError)
  | released (directory : Frame) (owned : Nat)

namespace SpaceEvent

def level : SpaceEvent → Level
  | created .. => .debug
  | mapped .. => .trace
  | tableLinked .. => .trace
  | tableNotFreed .. => .error
  | tableReleased .. => .trace
  | pageNotFreed .. => .error
  | unmapped .. => .trace
  | ownedNotReleased .. => .error
  | tableNotReleased .. => .error
  | directoryNotReleased .. => .error
  | released .. => .debug

def rights (writable user borrowed : Bool) : String :=
  (if writable then "w" else "r") ++ (if user then "u" else "k") ++
    (if borrowed then ", alias" else "")

def message : SpaceEvent → String
  | created directory => s!"paging: new address space, directory at {directory}"
  | mapped page frame writable user borrowed =>
    s!"paging: {page} -> {frame} (" ++ rights writable user borrowed ++ ")"
  | tableLinked table slot => s!"paging: page table {table} linked at directory slot {slot}"
  | tableNotFreed table cause => s!"paging: failed to release page table {table}: {cause}"
  | tableReleased table slot =>
    s!"paging: page table {table} released from directory slot {slot}"
  | pageNotFreed page frame cause =>
    "paging: page " ++ Text.hexShort page ++ s!" owned frame {frame} could not be freed: {cause}"
  | unmapped pages start => s!"paging: unmapped {pages} page(s) from " ++ Text.hexShort start
  | ownedNotReleased frame cause => s!"paging: release could not free {frame}: {cause}"
  | tableNotReleased table cause =>
    s!"paging: release could not free page table {table}: {cause}"
  | directoryNotReleased directory cause =>
    s!"paging: release could not free directory {directory}: {cause}"
  | released directory owned =>
    s!"paging: released address space {directory} ({owned} owned frame(s))"

end SpaceEvent

inductive RangeEvent where
  | mapped (pages : Nat) (base : VirtualAddress)
  | freshNotReturned (frame : Frame) (cause : FrameError)
  | rollbackFailed (pages first : Nat) (cause : PagingError)
  | unmapped (pages : Nat) (page : Page)
  | identityMapped (pages : Nat) (start : PhysicalAddress)
  | lent (pages : Nat) (user kernel : VirtualAddress)
  | lendingDropped (pages : Nat) (page : Page)

namespace RangeEvent

def level : RangeEvent → Level
  | mapped .. => .debug
  | freshNotReturned .. => .error
  | rollbackFailed .. => .error
  | unmapped .. => .debug
  | identityMapped .. => .debug
  | lent .. => .trace
  | lendingDropped .. => .trace

def message : RangeEvent → String
  | mapped pages base => s!"vmm: mapped {pages} page(s) at {base}"
  | freshNotReturned frame cause => s!"vmm: could not return {frame} after failed map: {cause}"
  | rollbackFailed pages first cause =>
    s!"vmm: rollback of {pages} page(s) at " ++ Text.hexShort first ++ s!" failed: {cause}"
  | unmapped pages page => s!"vmm: unmapped {pages} page(s) at {page}"
  | identityMapped pages start => s!"vmm: identity-mapped {pages} page(s) from {start}"
  | lent pages user kernel => s!"vmm: aliased {pages} user page(s) {user} at {kernel}"
  | lendingDropped pages page => s!"vmm: dropped alias of {pages} page(s) at {page}"

end RangeEvent
end PagedKernel
