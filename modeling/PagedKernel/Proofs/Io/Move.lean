import PagedKernel.Io.Read

/-! What a step of a read comes to, as a function of the read and its device: the read
goes on waiting, or it ends with a result. -/

namespace PagedKernel

def ReadState.of : ReadResult → ReadState
  | .ok _ => done
  | .error _ => failed

inductive Move where
  | wait (state : ReadState)
  | finish (result : ReadResult)

def Move.state : Move → ReadState
  | wait state => state
  | finish result => .of result

/-- The moves a read can make from a state. Only one that was made ready can end. -/
inductive Move.From : ReadState → Move → Prop
  | stays (state : ReadState) : From state (.wait state)
  | opens : From .notStarted (.wait .ready)
  | starts : From .ready (.wait .inProgress)
  | ends {state : ReadState} (h : state = .ready ∨ state = .inProgress) (result : ReadResult) :
      From state (.finish result)

theorem Move.From.isTerminal_eq {state state' : ReadState}
    (h : Move.From state (.wait state')) : state'.isTerminal = state.isTerminal := by
  cases h <;> rfl

namespace Device

variable {δ : Type} (device : Device δ) (asyncReads : Bool)

def advance (fd : Fd) (n : Nat) (d : δ) : ReadResult × δ :=
  match device.seek fd (min n Read.maxSeek) d with
  | (.ok (), d) => (.ok n, d)
  | (.error cause, d) => (.error (.device cause), d)

def readNow (r : Read) (d : δ) : ReadResult × δ :=
  match device.syncRead r.fd r.kernelBuffer r.count d with
  | (.ok n, d) => (.ok n, d)
  | (.error cause, d) => (.error (.device cause), d)

def pollMove (r : Read) (d : δ) : Move × δ :=
  match r.state with
  | .notStarted =>
    if r.count = 0 then (.wait .ready, d)
    else
      match device.busy r.fd d with
      | (busy, d) => (.wait (if busy then .notStarted else .ready), d)
  | .inProgress =>
    match device.bytesReady r.fd d with
    | (.ok n, d) =>
      if n = r.count then (device.advance r.fd n d).map .finish id
      else if r.count < n then (.finish (.error (.overrun r.count n)), d)
      else (.wait .inProgress, d)
    | (.error cause, d) => (.finish (.error (.device cause)), d)
  | state => (.wait state, d)

def issueMove (r : Read) (d : δ) : Move × δ :=
  if r.state = .ready then
    if r.count = 0 then (.finish (.ok 0), d)
    else if asyncReads then
      match device.issue r.fd r.kernelBuffer r.count d with
      | (.ok .notSupported, d) => (device.readNow r d).map .finish id
      | (.ok .accepted, d) => (.wait .inProgress, d)
      | (.ok (.immediate n), d) =>
        if r.count < n then (.finish (.error (.overrun r.count n)), d)
        else (device.advance r.fd n d).map .finish id
      | (.error cause, d) => (.finish (.error (.device cause)), d)
    else (device.readNow r d).map .finish id
  else (.wait r.state, d)

/-- A read that became ready is issued at once. -/
def driveMove (r : Read) (d : δ) : Move × δ :=
  match device.pollMove r d with
  | (.wait state, d) =>
    if state = .ready then device.issueMove asyncReads { r with state := .ready } d
    else (.wait state, d)
  | (.finish result, d) => (.finish result, d)

theorem pollMove_from (r : Read) (d : δ) : Move.From r.state (device.pollMove r d).1 := by
  unfold pollMove
  split
  · next hstate =>
    rw [hstate]
    split
    · exact .opens
    · dsimp only
      split
      · exact .stays _
      · exact .opens
  · next hstate =>
    rw [hstate]
    split
    · split
      · exact .ends (.inr rfl) _
      · split
        · exact .ends (.inr rfl) _
        · exact .stays _
    · exact .ends (.inr rfl) _
  · exact .stays _

theorem issueMove_from (r : Read) (d : δ) :
    Move.From r.state (device.issueMove asyncReads r d).1 := by
  unfold issueMove
  split
  · next hready =>
    rw [hready]
    split
    · exact .ends (.inl rfl) _
    · split
      · split
        · exact .ends (.inl rfl) _
        · exact .starts
        · split
          · exact .ends (.inl rfl) _
          · exact .ends (.inl rfl) _
        · exact .ends (.inl rfl) _
      · exact .ends (.inl rfl) _
  · exact .stays _

theorem issueMove_wait {r : Read} {d : δ} {state : ReadState} (hready : r.state = .ready)
    (h : (device.issueMove asyncReads r d).1 = .wait state) : state = .inProgress := by
  unfold issueMove at h
  rw [if_pos hready] at h
  split at h
  · cases h
  · split at h
    · split at h
      · cases h
      · cases h
        rfl
      · split at h <;> cases h
      · cases h
    · cases h

theorem driveMove_rests {r : Read} {d : δ} {state : ReadState}
    (hr : r.state = .notStarted ∨ r.state = .inProgress)
    (h : (device.driveMove asyncReads r d).1 = .wait state) :
    state = .notStarted ∨ state = .inProgress := by
  have hpoll := device.pollMove_from r d
  unfold driveMove at h
  revert h
  split
  · next polled d' heq =>
    rw [heq] at hpoll
    split
    · intro h
      exact .inr (device.issueMove_wait asyncReads rfl h)
    · next hne =>
      intro h
      cases h
      generalize r.state = before at hr hpoll
      cases hpoll with
      | stays => exact hr
      | opens => exact absurd rfl hne
      | starts => exact .inr rfl
  · exact nofun

theorem driveMove_wait {r : Read} {d : δ} {state : ReadState}
    (h : (device.driveMove asyncReads r d).1 = .wait state) :
    state.isTerminal = r.state.isTerminal := by
  have hpoll := device.pollMove_from r d
  unfold driveMove at h
  revert h
  split
  · next polled d' heq =>
    rw [heq] at hpoll
    split
    · next hready =>
      intro h
      have hissue := device.issueMove_from asyncReads { r with state := .ready } d'
      rw [h] at hissue
      rw [← hpoll.isTerminal_eq, hissue.isTerminal_eq, hready]
    · intro h
      cases h
      exact hpoll.isTerminal_eq
  · exact nofun

end Device

namespace Read

/-- Cancelling a read does not ask its device. -/
def cancelMove (r : Read) : Move :=
  if r.state.isTerminal then .wait r.state else .finish (.error .cancelled)

end Read
end PagedKernel
