import PagedKernel.Kernel.Error
import PagedKernel.Log.Paging

/-! Everything the kernel reports while it works. An event is data; its level
and its text are functions of it. The error level is kept for broken
invariants that have no caller to return to. -/

namespace PagedKernel

inductive ReadEvent where
  | resolvedTwice (rejected : ReadResult)
  | prepared (count : Nat) (fd : Fd) (user kernel : VirtualAddress)
  | ready (fd : Fd)
  | progress (fd : Fd) (arrived count : Nat)
  | noAsyncRead (fd : Fd)
  | started (fd : Fd)
  | buffered (bytes : Nat) (fd : Fd)
  | finished (bytes : Nat) (fd : Fd)
  | failed (fd : Fd) (cause : ReadError)
  | lendingKept (base : VirtualAddress) (span : Nat) (user : VirtualAddress) (cause : AliasError)
  | dropped (fd : Fd) (state : ReadState) (base : VirtualAddress) (span : Nat)

namespace ReadEvent

def level : ReadEvent → Level
  | resolvedTwice .. => .error
  | prepared .. => .trace
  | ready .. => .trace
  | progress .. => .trace
  | noAsyncRead .. => .trace
  | started .. => .trace
  | buffered .. => .trace
  | finished .. => .debug
  | failed .. => .warn
  | lendingKept .. => .error
  | dropped .. => .error

def message : ReadEvent → String
  | resolvedTwice rejected => "io: result slot written twice, dropped " ++ debug rejected
  | prepared count fd user kernel =>
    s!"io: read of {count} byte(s) on {fd} into {user} (kernel {kernel})"
  | ready fd => s!"io: read on {fd} ready"
  | progress fd arrived count => s!"io: read on {fd}: {arrived}/{count} byte(s)"
  | noAsyncRead fd => s!"io: {fd} has no async read, reading synchronously"
  | started fd => s!"io: read on {fd} in progress"
  | buffered bytes fd => s!"io: {bytes} byte(s) already buffered on {fd}"
  | finished bytes fd => s!"io: read of {bytes} byte(s) on {fd} done"
  | failed fd cause => s!"io: read on {fd} failed: {cause}"
  | lendingKept base span user cause =>
    s!"io: could not drop kernel alias {base}+{span} of {user}: {cause}"
  | dropped fd state base span =>
    s!"io: read on {fd} dropped in " ++ debug state ++ s!", leaking kernel alias {base}+{span}"

end ReadEvent

inductive QueueEvent where
  | endedWithoutResult (pid : ProcessId) (fd : Fd)
  | queued (pid : ProcessId) (fd : Fd)
  | finished (ended pending : Nat)
  | cancelled (ended : Nat)

namespace QueueEvent

def level : QueueEvent → Level
  | endedWithoutResult .. => .error
  | queued .. => .trace
  | finished .. => .debug
  | cancelled .. => .debug

def message : QueueEvent → String
  | endedWithoutResult pid fd => s!"io: {pid} op on {fd} ended without a result"
  | queued pid fd => s!"io: {pid} queued op on {fd}"
  | finished ended pending => s!"io: {ended} op(s) finished, {pending} pending"
  | cancelled ended => s!"io: cancelled {ended} op(s)"

end QueueEvent

inductive KernelEvent where
  | booted (identity free : Nat)
  | deviceRefused (base : PhysicalAddress) (size : Nat)
  | deviceNotMapped (base : PhysicalAddress) (size : Nat) (cause : MappingError)
  | deviceMapped (base : PhysicalAddress) (size pages : Nat)
  | spawned (pid : ProcessId) (directory : PhysicalAddress)
  | mapFailed (pid : ProcessId) (length : Nat) (cause : MappingError)
  | unmapOverlaps (pid : ProcessId) (address : VirtualAddress)
  | unmapFailed (pid : ProcessId) (address : VirtualAddress) (cause : MappingError)
  | readRejected (pid : ProcessId) (buffer : VirtualAddress) (cause : AliasError)
  | exited (pid : ProcessId) (cancelled free : Nat)
  | syscall (pid : ProcessId) (number arg0 arg1 arg2 : Nat)
  | syscallFailed (pid : ProcessId) (number : Nat) (cause : KernelError)
  | reporting
  | initializing (usableKiB : Nat)

namespace KernelEvent

def level : KernelEvent → Level
  | booted .. => .info
  | deviceRefused .. => .warn
  | deviceNotMapped .. => .warn
  | deviceMapped .. => .debug
  | spawned .. => .info
  | mapFailed .. => .warn
  | unmapOverlaps .. => .warn
  | unmapFailed .. => .warn
  | readRejected .. => .warn
  | exited .. => .info
  | syscall .. => .trace
  | syscallFailed .. => .warn
  | reporting => .info
  | initializing .. => .info

def message : KernelEvent → String
  | booted identity free =>
    s!"kernel: {identity} page(s) identity-mapped, {free} frame(s) free"
  | deviceRefused base size =>
    s!"kernel: refusing device mapping {base}+" ++ Text.hexShort size
  | deviceNotMapped base size cause =>
    s!"kernel: device window {base}+" ++ Text.hexShort size ++ s!" not mapped: {cause}"
  | deviceMapped base size pages =>
    s!"kernel: device window {base}+" ++ Text.hexShort size ++ s!" mapped ({pages} new page(s))"
  | spawned pid directory => s!"kernel: spawned {pid}, directory at {directory}"
  | mapFailed pid length cause => s!"kernel: {pid} mmap of {length} byte(s) failed: {cause}"
  | unmapOverlaps pid address => s!"kernel: {pid} munmap at {address} overlaps a read in flight"
  | unmapFailed pid address cause => s!"kernel: {pid} munmap at {address} failed: {cause}"
  | readRejected pid buffer cause => s!"kernel: {pid} read into {buffer} rejected: {cause}"
  | exited pid cancelled free =>
    s!"kernel: {pid} exited ({cancelled} read(s) cancelled, {free} frame(s) free)"
  | syscall pid number arg0 arg1 arg2 =>
    s!"syscall: {pid} #{number} (" ++ Text.hexShort arg0 ++ ", " ++ Text.hexShort arg1 ++ ", " ++
      Text.hexShort arg2 ++ ")"
  | syscallFailed pid number cause => s!"syscall: {pid} #{number} failed: {cause}"
  | reporting => "Kernel reporting to QEMU!"
  | initializing usableKiB => s!"Initializing memory management ({usableKiB} KiB usable) ..."

end KernelEvent

inductive Event where
  | frames (event : FrameEvent)
  | space (event : SpaceEvent)
  | range (event : RangeEvent)
  | read (event : ReadEvent)
  | queue (event : QueueEvent)
  | kernel (event : KernelEvent)

namespace Event

def level : Event → Level
  | frames event => event.level
  | space event => event.level
  | range event => event.level
  | read event => event.level
  | queue event => event.level
  | kernel event => event.level

def message : Event → String
  | frames event => event.message
  | space event => event.message
  | range event => event.message
  | read event => event.message
  | queue event => event.message
  | kernel event => event.message

def line (event : Event) : String :=
  event.level.name ++ " " ++ event.message

def lines (filter : Level) (events : Array Event) : List String :=
  (events.toList.filter fun e => e.level.enabledBy filter).map line

end Event
end PagedKernel
