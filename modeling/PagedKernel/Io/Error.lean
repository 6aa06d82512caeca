import PagedKernel.Space.Error

/-! Descriptors, the state of a read, and why a read ends without data. -/

namespace PagedKernel

structure Fd where
  number : Nat
  deriving DecidableEq

instance : ToString Fd where
  toString fd := s!"fd {fd.number}"

instance : Debug Fd where
  debug fd := Text.tuple "Fd" [debug fd.number]

/-- Progress of a read. `done` and `failed` are final. -/
inductive ReadState where
  | notStarted
  | ready
  | inProgress
  | done
  | failed
  deriving DecidableEq

namespace ReadState

def isTerminal : ReadState → Bool
  | done => true
  | failed => true
  | _ => false

instance : Debug ReadState where
  debug
    | notStarted => "NotStarted"
    | ready => "Ready"
    | inProgress => "InProgress"
    | done => "Done"
    | failed => "Error"

end ReadState

inductive DeviceError where
  | badDescriptor (fd : Fd)
  | transfer (fd : Fd)
  | invalidSeek (fd : Fd)
  deriving DecidableEq

namespace DeviceError

def message : DeviceError → String
  | badDescriptor fd => s!"{fd} is not open"
  | transfer fd => s!"transfer on {fd} failed"
  | invalidSeek fd => s!"seek on {fd} left the file"

def kind : DeviceError → String
  | badDescriptor _ => "BadDescriptor"
  | transfer _ => "Io"
  | invalidSeek _ => "InvalidSeek"

instance : Refusal DeviceError where
  kind := kind
  message := message
  debug
    | badDescriptor fd => Text.tuple "BadDescriptor" [debug fd]
    | transfer fd => Text.tuple "Io" [debug fd]
    | invalidSeek fd => Text.tuple "InvalidSeek" [debug fd]

end DeviceError

inductive ReadError where
  | device (cause : DeviceError)
  | aliasing (cause : AliasError)
  | overrun (requested reported : Nat)
  | cancelled
  deriving DecidableEq

namespace ReadError

def message : ReadError → String
  | device cause => cause.message
  | aliasing cause => cause.message
  | overrun requested reported =>
    s!"device reported {reported} bytes for a {requested}-byte read"
  | cancelled => "operation was cancelled"

instance : ToString ReadError := ⟨message⟩

def kind : ReadError → String
  | device cause => "Device." ++ cause.kind
  | aliasing cause => "Alias." ++ cause.kind
  | overrun .. => "Overrun"
  | cancelled => "Cancelled"

instance : Refusal ReadError where
  kind := kind
  message := message
  debug
    | device cause => Text.tuple "Device" [debug cause]
    | aliasing cause => Text.tuple "Alias" [debug cause]
    | overrun requested reported =>
      Text.record "Overrun" [("requested", debug requested), ("reported", debug reported)]
    | cancelled => "Cancelled"

end ReadError

abbrev ReadResult := Except ReadError Nat

end PagedKernel
