import PagedKernel.Io.Backend

/-! A device that answers as told, moves no data and keeps a list of the calls
it received. Answers are set for one descriptor or for all that have none of
their own. -/

namespace PagedKernel.ScriptedDevice

/-- A number of bytes: fixed, or as many as were asked for. -/
inductive Amount where
  | fixed (bytes : Nat)
  | requested

namespace Amount

def bytesFor (asked : Nat) : Amount → Nat
  | fixed bytes => bytes
  | requested => asked

end Amount

inductive Failure where
  | badDescriptor
  | transfer
  | invalidSeek

namespace Failure

def on (fd : Fd) : Failure → DeviceError
  | badDescriptor => .badDescriptor fd
  | transfer => .transfer fd
  | invalidSeek => .invalidSeek fd

end Failure

inductive IssueAnswer where
  | accepted
  | unsupported
  | immediate (amount : Amount)
  | fails (failure : Failure)

inductive TransferAnswer where
  | bytes (amount : Amount)
  | fails (failure : Failure)

inductive SeekAnswer where
  | moves
  | fails (failure : Failure)

/-- The answers that were set; the others are open. -/
structure Script where
  busy : Option Bool := none
  issue : Option IssueAnswer := none
  ready : Option TransferAnswer := none
  sync : Option TransferAnswer := none
  seek : Option SeekAnswer := none

namespace Script

def withFallback (newer older : Script) : Script where
  busy := newer.busy <|> older.busy
  issue := newer.issue <|> older.issue
  ready := newer.ready <|> older.ready
  sync := newer.sync <|> older.sync
  seek := newer.seek <|> older.seek

end Script

inductive DeviceCall where
  | busy (fd : Fd)
  | issue (fd : Fd) (buffer : VirtualAddress) (count : Nat)
  | ready (fd : Fd)
  | seek (fd : Fd) (offset : Nat)
  | sync (fd : Fd) (buffer : VirtualAddress) (count : Nat)

structure State where
  common : Script
  own : List (Fd × Script)
  asked : List (Fd × Nat)
  calls : Array DeviceCall

def State.initial : State := ⟨{}, [], [], #[]⟩

def State.script (s : State) (fd : Fd) : Script :=
  ((s.own.lookup fd).getD {}).withFallback s.common

def State.set (fd? : Option Fd) (script : Script) (s : State) : State :=
  match fd? with
  | none => { s with common := script.withFallback s.common }
  | some fd => { s with own := (fd, script.withFallback ((s.own.lookup fd).getD {})) :: s.own }

def State.clearCalls (s : State) : State :=
  { s with calls := #[] }

def State.log (call : DeviceCall) (s : State) : State :=
  { s with calls := s.calls.push call }

def transfer (fd : Fd) (asked : Nat) : Option TransferAnswer → Except DeviceError Nat
  | none => .ok 0
  | some (.bytes amount) => .ok (amount.bytesFor asked)
  | some (.fails failure) => .error (failure.on fd)

def device : Device State where
  busy fd s := (((s.script fd).busy).getD false, s.log (.busy fd))
  issue fd buffer count s :=
    let answer := match (s.script fd).issue.getD .accepted with
      | .accepted => .ok .accepted
      | .unsupported => .ok .notSupported
      | .immediate amount => .ok (.immediate (amount.bytesFor count))
      | .fails failure => .error (failure.on fd)
    (answer, { s.log (.issue fd buffer count) with asked := (fd, count) :: s.asked })
  bytesReady fd s :=
    (transfer fd ((s.asked.lookup fd).getD 0) (s.script fd).ready, s.log (.ready fd))
  seek fd offset s :=
    let answer := match (s.script fd).seek with
      | some (.fails failure) => .error (failure.on fd)
      | _ => .ok ()
    (answer, s.log (.seek fd offset))
  syncRead fd buffer count s :=
    (transfer fd count (s.script fd).sync, s.log (.sync fd buffer count))

end PagedKernel.ScriptedDevice
