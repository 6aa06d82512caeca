import PagedKernel.Proofs.Io.Lifecycle

/-! What a read and its device say to each other in one step: the calls, with their answers, and the
move that comes of them. -/

namespace PagedKernel

def ReadResult.ofDevice : Except DeviceError Nat → ReadResult
  | .ok n => .ok n
  | .error cause => .error (.device cause)

variable {δ : Type} {fd : Fd} {buffer : VirtualAddress} {count : Nat} {r : Read} {move : Move}
  {calls : List DeviceCall}

def DeviceCall.advance (fd : Fd) (n : Nat) (moved : Except DeviceError Unit) : DeviceCall :=
  .seek fd (min n Read.maxSeek) moved

inductive Polled (r : Read) : Move → List DeviceCall → Prop
  | rests : Polled r (.wait r.state) []
  | opens (hcount : r.count = 0) : Polled r (.wait .ready) []
  | busy (busy : Bool) : Polled r (.wait (if busy then .notStarted else .ready)) [.busy r.fd busy]
  | progresses (hstate : r.state = .inProgress) {n : Nat} (hn : n < r.count) :
    Polled r (.wait .inProgress) [.bytesReady r.fd (.ok n)]
  | completes (hstate : r.state = .inProgress) (moved : Except DeviceError Unit) :
    Polled r (.finish (.ofDevice (moved.map fun _ => r.count)))
      [.bytesReady r.fd (.ok r.count), .advance r.fd r.count moved]
  | overruns {n : Nat} (hn : r.count < n) :
    Polled r (.finish (.error (.overrun r.count n))) [.bytesReady r.fd (.ok n)]
  | fails (cause : DeviceError) :
    Polled r (.finish (.error (.device cause))) [.bytesReady r.fd (.error cause)]

inductive Issued (fd : Fd) (buffer : VirtualAddress) (count : Nat) :
    Move → List DeviceCall → Prop
  | empty (hcount : count = 0) : Issued fd buffer count (.finish (.ok 0)) []
  | starts (hcount : count ≠ 0) :
    Issued fd buffer count (.wait .inProgress) [.issue fd buffer count (.ok .accepted)]
  | delivers (hcount : count ≠ 0) {n : Nat} (hn : n ≤ count) (moved : Except DeviceError Unit) :
    Issued fd buffer count (.finish (.ofDevice (moved.map fun _ => n)))
      [.issue fd buffer count (.ok (.immediate n)), .advance fd n moved]
  | overruns {n : Nat} (hn : count < n) :
    Issued fd buffer count (.finish (.error (.overrun count n)))
      [.issue fd buffer count (.ok (.immediate n))]
  | fails (cause : DeviceError) : Issued fd buffer count (.finish (.error (.device cause)))
      [.issue fd buffer count (.error cause)]
  | falls (hcount : count ≠ 0) (answer : Except DeviceError Nat) :
    Issued fd buffer count (.finish (.ofDevice answer))
      [.issue fd buffer count (.ok .notSupported), .syncRead fd buffer count answer]
  | reads (hcount : count ≠ 0) (answer : Except DeviceError Nat) :
    Issued fd buffer count (.finish (.ofDevice answer)) [.syncRead fd buffer count answer]

/-- The calls of one step of a read, whether it is polled, issued, driven or cancelled. -/
inductive Exchanged (r : Read) : Move → List DeviceCall → Prop
  | polled {move : Move} {calls : List DeviceCall} (h : Polled r move calls) :
    Exchanged r move calls
  | issued {move : Move} {calls : List DeviceCall}
    (h : Issued r.fd r.kernelBuffer r.count move calls) : Exchanged r move calls
  | driven {first calls : List DeviceCall} {move : Move} (hpoll : Polled r (.wait .ready) first)
    (hissue : Issued r.fd r.kernelBuffer r.count move calls) : Exchanged r move (first ++ calls)
  | cancelled : Exchanged r (.finish (.error .cancelled)) []

theorem Polled.calls_fd (h : Polled r move calls) : ∀ c ∈ calls, c.fd = r.fd := by
  cases h <;> simp [DeviceCall.fd, DeviceCall.advance]

theorem Issued.calls_fd (h : Issued fd buffer count move calls) : ∀ c ∈ calls, c.fd = fd := by
  cases h <;> simp [DeviceCall.fd, DeviceCall.advance]

theorem Exchanged.calls_fd (h : Exchanged r move calls) : ∀ c ∈ calls, c.fd = r.fd := by
  cases h with
  | polled h => exact h.calls_fd
  | issued h => exact h.calls_fd
  | driven hpoll hissue => exact List.forall_mem_append.mpr ⟨hpoll.calls_fd, hissue.calls_fd⟩
  | cancelled => exact List.forall_mem_nil _

theorem Exchanged.started (h : Exchanged r (.wait .inProgress) calls) :
    r.state = .inProgress ∨ r.count ≠ 0 := by
  generalize hmove : Move.wait .inProgress = move at h
  cases h with
  | polled h =>
    cases h with
    | rests => exact .inl (Move.wait.inj hmove).symm
    | busy busy => cases busy <;> cases hmove
    | progresses hstate => exact .inl hstate
    | _ => cases hmove
  | issued h =>
    cases h with
    | starts hcount => exact .inr hcount
    | _ => cases hmove
  | driven _ h =>
    cases h with
    | starts hcount => exact .inr hcount
    | _ => cases hmove
  | cancelled => cases hmove

theorem Issued.of_empty {n : Nat} (h : Issued fd buffer count (.finish (.ok n)) calls)
    (hcount : count = 0) : n = 0 := by
  generalize hmove : Move.finish (.ok n) = move at h
  cases h with
  | empty =>
    cases hmove
    rfl
  | delivers hne => exact absurd hcount hne
  | falls hne => exact absurd hcount hne
  | reads hne => exact absurd hcount hne
  | _ => cases hmove

theorem Exchanged.of_empty {n : Nat} (h : Exchanged r (.finish (.ok n)) calls)
    (hstarted : r.state = .inProgress → r.count ≠ 0) (hcount : r.count = 0) : n = 0 := by
  cases h with
  | polled h =>
    generalize hmove : Move.finish (.ok n) = move at h
    cases h with
    | completes hstate => exact absurd hcount (hstarted hstate)
    | _ => cases hmove
  | issued h => exact h.of_empty hcount
  | driven _ h => exact h.of_empty hcount

theorem Recorded.ask_calls {σ κ α : Type} {f : σ → α × σ} {call : α → κ} {a : α}
    {s t : Recorded σ κ} (h : ask f call s = (a, t)) : t.calls = s.calls ++ [call a] := by
  cases h
  rfl

namespace Device

variable (device : Device δ) (asyncReads : Bool) (d : Recorded δ DeviceCall)

theorem advance_calls (fd : Fd) (n : Nat) : ∃ moved,
    (device.recorded.advance fd n d).1 = .ofDevice (moved.map fun _ => n) ∧
      (device.recorded.advance fd n d).2.calls = d.calls ++ [.advance fd n moved] := by
  unfold advance
  split
  · next h => exact ⟨.ok (), rfl, Recorded.ask_calls h⟩
  · next cause _ h => exact ⟨.error cause, rfl, Recorded.ask_calls h⟩

theorem readNow_calls (r : Read) : ∃ answer,
    (device.recorded.readNow r d).1 = .ofDevice answer ∧ (device.recorded.readNow r d).2.calls =
      d.calls ++ [.syncRead r.fd r.kernelBuffer r.count answer] := by
  unfold readNow
  split
  · next n _ h => exact ⟨.ok n, rfl, Recorded.ask_calls h⟩
  · next cause _ h => exact ⟨.error cause, rfl, Recorded.ask_calls h⟩

theorem pollMove_polled (r : Read) : ∃ calls,
    (device.recorded.pollMove r d).2.calls = d.calls ++ calls ∧
      Polled r (device.recorded.pollMove r d).1 calls := by
  unfold pollMove
  split
  · split
    · next hcount => exact ⟨[], (List.append_nil _).symm, .opens hcount⟩
    · exact ⟨_, Recorded.ask_calls rfl, .busy _⟩
  · next hstate =>
    split
    · next n d' h =>
      have hcalls := Recorded.ask_calls h
      split
      · next hn =>
        subst hn
        obtain ⟨moved, hresult, hmoved⟩ := device.advance_calls d' r.fd r.count
        rw [hcalls, List.append_assoc] at hmoved
        have hpolled := Polled.completes hstate moved
        rw [← hresult] at hpolled
        exact ⟨_, hmoved, hpolled⟩
      · split
        · next hn => exact ⟨_, hcalls, .overruns hn⟩
        · next hne hn => exact ⟨_, hcalls, .progresses hstate (by omega)⟩
    · next cause d' h => exact ⟨_, Recorded.ask_calls h, .fails cause⟩
  · exact ⟨[], (List.append_nil _).symm, .rests⟩

theorem issueMove_issued (r : Read) (hready : r.state = .ready) : ∃ calls,
    (device.recorded.issueMove asyncReads r d).2.calls = d.calls ++ calls ∧
      Issued r.fd r.kernelBuffer r.count (device.recorded.issueMove asyncReads r d).1 calls := by
  unfold issueMove
  rw [if_pos hready]
  split
  · next hcount => exact ⟨[], (List.append_nil _).symm, .empty hcount⟩
  · next hcount =>
    split
    · split
      · next d' h =>
        obtain ⟨answer, hresult, hread⟩ := device.readNow_calls d' r
        rw [Recorded.ask_calls h, List.append_assoc] at hread
        have hissued : Issued r.fd r.kernelBuffer r.count _ _ := .falls hcount answer
        rw [← hresult] at hissued
        exact ⟨_, hread, hissued⟩
      · next d' h => exact ⟨_, Recorded.ask_calls h, .starts hcount⟩
      · next n d' h =>
        have hcalls := Recorded.ask_calls h
        split
        · next hn => exact ⟨_, hcalls, .overruns hn⟩
        · next hn =>
          obtain ⟨moved, hresult, hmoved⟩ := device.advance_calls d' r.fd n
          rw [hcalls, List.append_assoc] at hmoved
          have hissued : Issued r.fd r.kernelBuffer r.count _ _ :=
            .delivers hcount (Nat.le_of_not_lt hn) moved
          rw [← hresult] at hissued
          exact ⟨_, hmoved, hissued⟩
      · next cause d' h => exact ⟨_, Recorded.ask_calls h, .fails cause⟩
    · obtain ⟨answer, hresult, hread⟩ := device.readNow_calls d r
      have hissued : Issued r.fd r.kernelBuffer r.count _ _ := .reads hcount answer
      rw [← hresult] at hissued
      exact ⟨_, hread, hissued⟩

theorem driveMove_exchanged (r : Read) : ∃ calls,
    (device.recorded.driveMove asyncReads r d).2.calls = d.calls ++ calls ∧
      Exchanged r (device.recorded.driveMove asyncReads r d).1 calls := by
  obtain ⟨first, hfirst, hpolled⟩ := device.pollMove_polled d r
  unfold driveMove
  split
  · next state d' hpoll =>
    rw [hpoll] at hfirst hpolled
    split
    · next hready =>
      subst hready
      obtain ⟨calls, hcalls, hissued⟩ :=
        device.issueMove_issued asyncReads d' { r with state := .ready } rfl
      rw [hfirst, List.append_assoc] at hcalls
      exact ⟨_, hcalls, .driven hpolled hissued⟩
    · exact ⟨_, hfirst, .polled hpolled⟩
  · next result d' hpoll =>
    rw [hpoll] at hfirst hpolled
    exact ⟨_, hfirst, .polled hpolled⟩

end Device

theorem Read.cancelMove_exchanged (r : Read) : Exchanged r r.cancelMove [] := by
  unfold cancelMove
  split
  · exact .polled .rests
  · exact .cancelled

theorem Read.ReadCall.move_exchanged {μ : Type} {device : Device δ}
    {backend : Backend (Recorded δ DeviceCall) μ} (hdevice : backend.device = device.recorded)
    (r : Read) (d : Recorded δ DeviceCall) (call : ReadCall) : ∃ calls,
      (call.move backend r d).2.calls = d.calls ++ calls ∧
        Exchanged r (call.move backend r d).1 calls := by
  cases call with
  | poll =>
    obtain ⟨calls, hcalls, hpolled⟩ := device.pollMove_polled d r
    dsimp only [move]
    rw [hdevice]
    exact ⟨calls, hcalls, .polled hpolled⟩
  | issue =>
    dsimp only [move]
    rw [hdevice]
    by_cases hready : r.state = .ready
    · obtain ⟨calls, hcalls, hissued⟩ := device.issueMove_issued backend.asyncReads d r hready
      exact ⟨calls, hcalls, .issued hissued⟩
    · unfold Device.issueMove
      rw [if_neg hready]
      exact ⟨[], (List.append_nil _).symm, .polled .rests⟩
  | cancel => exact ⟨[], (List.append_nil _).symm, r.cancelMove_exchanged⟩

end PagedKernel
