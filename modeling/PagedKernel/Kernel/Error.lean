import PagedKernel.Address.Physical
import PagedKernel.Io.Error

/-! Process numbers, why a process waits, and why the kernel refuses a
request. None of these errors stops the kernel. -/

namespace PagedKernel

structure ProcessId where
  number : Nat
  deriving DecidableEq

instance : ToString ProcessId where
  toString pid := s!"pid {pid.number}"

instance : Debug ProcessId where
  debug pid := Text.tuple "ProcessId" [debug pid.number]

inductive WaitingReason where
  | notWaiting
  /-- A read was issued and is in flight. -/
  | fileReading
  /-- A read is queued behind a busy device. -/
  | deviceBusy
  deriving DecidableEq

instance : Debug WaitingReason where
  debug
    | .notWaiting => "NotWaiting"
    | .fileReading => "FileReading"
    | .deviceBusy => "DevBusy"

inductive LoggerError where
  | alreadyInitialized
  | otherLoggerInstalled
  deriving DecidableEq

namespace LoggerError

def message : LoggerError → String
  | alreadyInitialized => "the QEMU logger was already initialized"
  | otherLoggerInstalled => "a different logger is already installed"

def kind : LoggerError → String
  | alreadyInitialized => "AlreadyInitialized"
  | otherLoggerInstalled => "OtherLoggerInstalled"

instance : Refusal LoggerError where
  kind := kind
  message := message
  debug := kind

end LoggerError

inductive KernelError where
  | noSuchProcess (pid : ProcessId)
  | notInitialized
  | alreadyInitialized
  | unknownSyscall (number : Nat)
  | notRunnable (pid : ProcessId) (waiting : WaitingReason)
  | bufferInUse (pid : ProcessId) (address : VirtualAddress)
  | notDeviceMemory (base : PhysicalAddress) (size : Nat)
  | mapping (cause : MappingError)
  | paging (cause : PagingError)
  | aliasing (cause : AliasError)
  | logger (cause : LoggerError)
  deriving DecidableEq

namespace KernelError

def message : KernelError → String
  | noSuchProcess pid => s!"no such process: {pid}"
  | notInitialized => "the kernel is not initialized"
  | alreadyInitialized => "the kernel is already initialized"
  | unknownSyscall number => s!"unknown system call {number}"
  | notRunnable pid waiting =>
    s!"{pid} cannot make system calls while waiting (" ++ debug waiting ++ ")"
  | bufferInUse pid address => s!"{pid} has a read in flight into the pages at {address}"
  | notDeviceMemory base size =>
    s!"{base}+" ++ Text.hexShort size ++ " is neither in the kernel window nor the device window"
  | mapping cause => cause.message
  | paging cause => cause.message
  | aliasing cause => cause.message
  | logger cause => cause.message

instance : ToString KernelError := ⟨message⟩

def kind : KernelError → String
  | noSuchProcess _ => "NoSuchProcess"
  | notInitialized => "NotInitialized"
  | alreadyInitialized => "AlreadyInitialized"
  | unknownSyscall _ => "UnknownSyscall"
  | notRunnable .. => "NotRunnable"
  | bufferInUse .. => "BufferInUse"
  | notDeviceMemory .. => "NotDeviceMemory"
  | mapping cause => "Vmm." ++ cause.kind
  | paging cause => "Paging." ++ cause.kind
  | aliasing cause => "Alias." ++ cause.kind
  | logger cause => "Logger." ++ cause.kind

instance : Refusal KernelError where
  kind := kind
  message := message
  debug
    | noSuchProcess pid => Text.tuple "NoSuchProcess" [debug pid]
    | notInitialized => "NotInitialized"
    | alreadyInitialized => "AlreadyInitialized"
    | unknownSyscall number => Text.tuple "UnknownSyscall" [debug number]
    | notRunnable pid waiting =>
      Text.record "NotRunnable" [("pid", debug pid), ("waiting", debug waiting)]
    | bufferInUse pid address =>
      Text.record "BufferInUse" [("pid", debug pid), ("addr", debug address)]
    | notDeviceMemory base size =>
      Text.record "NotDeviceMemory" [("base", debug base), ("size", debug size)]
    | mapping cause => Text.tuple "Vmm" [debug cause]
    | paging cause => Text.tuple "Paging" [debug cause]
    | aliasing cause => Text.tuple "Alias" [debug cause]
    | logger cause => Text.tuple "Logger" [debug cause]

end KernelError
end PagedKernel
