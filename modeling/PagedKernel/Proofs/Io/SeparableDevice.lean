import PagedKernel.Proofs.Io.Move
import PagedKernel.Proofs.Io.Recording

/-! Devices that keep their descriptors apart: what they answer on one of them depends only on what
they were asked before on the same one. Driving a read, such a device cannot tell a state from
another in which it was asked the same on the descriptor of the read. -/

namespace PagedKernel

inductive DeviceRequest where
  | busy (fd : Fd)
  | issue (fd : Fd) (buffer : VirtualAddress) (count : Nat)
  | bytesReady (fd : Fd)
  | seek (fd : Fd) (distance : Nat)
  | syncRead (fd : Fd) (buffer : VirtualAddress) (count : Nat)

namespace DeviceRequest

def fd : DeviceRequest → Fd
  | busy fd => fd
  | issue fd .. => fd
  | bytesReady fd => fd
  | seek fd _ => fd
  | syncRead fd .. => fd

end DeviceRequest

namespace DeviceCall

def request : DeviceCall → DeviceRequest
  | busy fd _ => .busy fd
  | issue fd buffer count _ => .issue fd buffer count
  | bytesReady fd _ => .bytesReady fd
  | seek fd distance _ => .seek fd distance
  | syncRead fd buffer count _ => .syncRead fd buffer count

@[simp]
theorem request_fd (call : DeviceCall) : call.request.fd = call.fd := by
  cases call <;> rfl

theorem requests_on (fd : Fd) (calls : List DeviceCall) :
    (calls.map request).filter (·.fd = fd) = (calls.filter (·.fd = fd)).map request := by
  rw [List.filter_map]
  refine congrArg (List.map request) (List.filter_congr fun call _ => ?_)
  exact congrArg (fun other => decide (other = fd)) call.request_fd

end DeviceCall

namespace Device

variable {δ : Type}

def serve (device : Device δ) : DeviceRequest → δ → DeviceCall × δ
  | .busy fd, d => (device.busy fd d).map (.busy fd) id
  | .issue fd buffer count, d => (device.issue fd buffer count d).map (.issue fd buffer count) id
  | .bytesReady fd, d => (device.bytesReady fd d).map (.bytesReady fd) id
  | .seek fd distance, d => (device.seek fd distance d).map (.seek fd distance) id
  | .syncRead fd buffer count, d =>
    (device.syncRead fd buffer count d).map (.syncRead fd buffer count) id

def after (device : Device δ) (d₀ : δ) (requests : List DeviceRequest) : δ :=
  requests.foldl (fun d q => (device.serve q d).2) d₀

theorem serve_request (device : Device δ) (q : DeviceRequest) (d : δ) :
    (device.serve q d).1.request = q := by
  cases q <;> rfl

theorem serve_fd (device : Device δ) (q : DeviceRequest) (d : δ) :
    (device.serve q d).1.fd = q.fd := by
  rw [← DeviceCall.request_fd, serve_request]

theorem recorded_serve (device : Device δ) (q : DeviceRequest) (d : Recorded δ DeviceCall) :
    device.recorded.serve q d = ((device.serve q d.state).1,
      ⟨(device.serve q d.state).2, d.calls ++ [(device.serve q d.state).1]⟩) := by
  cases q <;> rfl

theorem after_concat (device : Device δ) (d₀ : δ) (requests : List DeviceRequest)
    (q : DeviceRequest) : device.after d₀ (requests ++ [q]) =
      (device.serve q (device.after d₀ requests)).2 :=
  List.foldl_append

/-- From `d₀` on the answers on a descriptor depend on earlier requests on that descriptor only. -/
def Separable (device : Device δ) (d₀ : δ) : Prop :=
  ∀ (q : DeviceRequest) (earlier earlier' : List DeviceRequest),
    earlier.filter (·.fd = q.fd) = earlier'.filter (·.fd = q.fd) →
      (device.serve q (device.after d₀ earlier)).1 = (device.serve q (device.after d₀ earlier')).1

theorem Separable.of_parts {α : Type} {device : Device δ} {d₀ : δ} (part : Fd → δ → α)
    (hsame : ∀ q d d', part q.fd d = part q.fd d' → (device.serve q d).1 = (device.serve q d').1 ∧
      part q.fd (device.serve q d).2 = part q.fd (device.serve q d').2)
    (hother : ∀ (q : DeviceRequest) d fd, q.fd ≠ fd → part fd (device.serve q d).2 = part fd d) :
    device.Separable d₀ := by
  have hpart : ∀ fd (requests : List DeviceRequest) d d', part fd d = part fd d' →
      part fd (device.after d requests) =
        part fd (device.after d' (requests.filter (·.fd = fd))) := by
    intro fd requests
    induction requests with
    | nil => exact fun d d' h => h
    | cons q requests ih =>
      intro d d' h
      by_cases hfd : q.fd = fd
      · subst hfd
        rw [List.filter_cons, if_pos (decide_eq_true rfl)]
        exact ih _ _ (hsame q d d' h).2
      · rw [List.filter_cons, if_neg (mt of_decide_eq_true hfd)]
        exact ih _ _ ((hother q d fd hfd).trans h)
  intro q earlier earlier' h
  refine (hsame q _ _ ?_).1
  rw [hpart q.fd earlier d₀ d₀ rfl, hpart q.fd earlier' d₀ d₀ rfl, h]

inductive Agree {α : Type} (R : δ → δ → Prop) : α × δ → α × δ → Prop
  | same (a : α) {d d' : δ} (h : R d d') : Agree R (a, d) (a, d')

theorem Agree.map {α β : Type} {R : δ → δ → Prop} {x y : α × δ} (h : Agree R x y) (f : α → β) :
    Agree R (x.map f id) (y.map f id) := by
  cases h with
  | same a h => exact .same (f a) h

theorem Agree.of_map {α β : Type} {R : δ → δ → Prop} {x y : α × δ} {f : α → β}
    (hf : Function.Injective f) (h : Agree R (x.map f id) (y.map f id)) : Agree R x y := by
  obtain ⟨a, d⟩ := x
  obtain ⟨b, d'⟩ := y
  generalize hx : Prod.map f id (a, d) = fx at h
  generalize hy : Prod.map f id (b, d') = fy at h
  cases h with
  | same c h =>
    obtain ⟨hc, rfl⟩ := Prod.mk.inj hx
    obtain ⟨hc', rfl⟩ := Prod.mk.inj hy
    obtain rfl := hf (hc.trans hc'.symm)
    exact .same a h

/-- Asked on one descriptor, related devices answer the same and stay related. -/
structure Sim (device : Device δ) (fd : Fd) (R : δ → δ → Prop) : Prop where
  busy : ∀ {d d'}, R d d' → Agree R (device.busy fd d) (device.busy fd d')
  issue : ∀ {d d'} (buffer : VirtualAddress) (count : Nat), R d d' →
    Agree R (device.issue fd buffer count d) (device.issue fd buffer count d')
  bytesReady : ∀ {d d'}, R d d' → Agree R (device.bytesReady fd d) (device.bytesReady fd d')
  seek : ∀ {d d'} (distance : Nat), R d d' →
    Agree R (device.seek fd distance d) (device.seek fd distance d')
  syncRead : ∀ {d d'} (buffer : VirtualAddress) (count : Nat), R d d' →
    Agree R (device.syncRead fd buffer count d) (device.syncRead fd buffer count d')

namespace Sim

variable {device : Device δ} {R : δ → δ → Prop} {d d' : δ}

theorem of_serve {fd : Fd} (h : ∀ (q : DeviceRequest) {d d' : δ}, q.fd = fd → R d d' →
    Agree R (device.serve q d) (device.serve q d')) : device.Sim fd R where
  busy hr := .of_map (fun _ _ h => (DeviceCall.busy.inj h).2) (h (.busy fd) rfl hr)
  issue buffer count hr := .of_map (fun _ _ h => (DeviceCall.issue.inj h).2.2.2)
    (h (.issue fd buffer count) rfl hr)
  bytesReady hr := .of_map (fun _ _ h => (DeviceCall.bytesReady.inj h).2)
    (h (.bytesReady fd) rfl hr)
  seek distance hr := .of_map (fun _ _ h => (DeviceCall.seek.inj h).2.2)
    (h (.seek fd distance) rfl hr)
  syncRead buffer count hr := .of_map (fun _ _ h => (DeviceCall.syncRead.inj h).2.2.2)
    (h (.syncRead fd buffer count) rfl hr)

theorem advance {fd : Fd} (hs : device.Sim fd R) (n : Nat) (h : R d d') :
    Agree R (device.advance fd n d) (device.advance fd n d') := by
  have hseek := hs.seek (min n Read.maxSeek) h
  unfold Device.advance
  generalize device.seek fd (min n Read.maxSeek) d = x at hseek ⊢
  generalize device.seek fd (min n Read.maxSeek) d' = y at hseek ⊢
  cases hseek with
  | same answer h =>
    cases answer with
    | ok => exact .same _ h
    | error cause => exact .same _ h

theorem readNow {r : Read} (hs : device.Sim r.fd R) (h : R d d') :
    Agree R (device.readNow r d) (device.readNow r d') := by
  have hread := hs.syncRead r.kernelBuffer r.count h
  unfold Device.readNow
  generalize device.syncRead r.fd r.kernelBuffer r.count d = x at hread ⊢
  generalize device.syncRead r.fd r.kernelBuffer r.count d' = y at hread ⊢
  cases hread with
  | same answer h =>
    cases answer with
    | ok n => exact .same _ h
    | error cause => exact .same _ h

theorem pollMove {r : Read} (hs : device.Sim r.fd R) (h : R d d') :
    Agree R (device.pollMove r d) (device.pollMove r d') := by
  unfold Device.pollMove
  cases r.state with
  | notStarted =>
    dsimp only
    split
    · exact .same _ h
    · exact (hs.busy h).map fun busy => Move.wait (if busy then .notStarted else .ready)
  | inProgress =>
    dsimp only
    have hready := hs.bytesReady h
    generalize device.bytesReady r.fd d = x at hready ⊢
    generalize device.bytesReady r.fd d' = y at hready ⊢
    cases hready with
    | same answer h =>
      cases answer with
      | error cause => exact .same _ h
      | ok n =>
        dsimp only
        split
        · exact (hs.advance n h).map _
        · split
          · exact .same _ h
          · exact .same _ h
  | ready => exact .same _ h
  | done => exact .same _ h
  | failed => exact .same _ h

theorem issueMove {r : Read} (hs : device.Sim r.fd R) (asyncReads : Bool) (h : R d d') :
    Agree R (device.issueMove asyncReads r d) (device.issueMove asyncReads r d') := by
  unfold Device.issueMove
  split
  · split
    · exact .same _ h
    · split
      · have hissue := hs.issue r.kernelBuffer r.count h
        generalize device.issue r.fd r.kernelBuffer r.count d = x at hissue ⊢
        generalize device.issue r.fd r.kernelBuffer r.count d' = y at hissue ⊢
        cases hissue with
        | same answer h =>
          rcases answer with cause | _ | _ | n
          · exact .same _ h
          · exact (hs.readNow h).map _
          · exact .same _ h
          · dsimp only
            split
            · exact .same _ h
            · exact (hs.advance n h).map _
      · exact (hs.readNow h).map _
  · exact .same _ h

theorem driveMove {r : Read} (hs : device.Sim r.fd R) (asyncReads : Bool) (h : R d d') :
    Agree R (device.driveMove asyncReads r d) (device.driveMove asyncReads r d') := by
  have hpoll := hs.pollMove h
  unfold Device.driveMove
  generalize device.pollMove r d = x at hpoll ⊢
  generalize device.pollMove r d' = y at hpoll ⊢
  cases hpoll with
  | same move h =>
    cases move with
    | finish result => exact .same _ h
    | wait state =>
      dsimp only
      split
      · exact issueMove (r := { r with state := .ready }) hs asyncReads h
      · exact .same _ h

end Sim

variable {device : Device δ} {d₀ : δ} {fd : Fd} {d d' : Recorded δ DeviceCall}

structure Follows (device : Device δ) (d₀ : δ) (fd : Fd) (d d' : Recorded δ DeviceCall) :
    Prop where
  state : d.state = device.after d₀ (d.calls.map DeviceCall.request)
  state' : d'.state = device.after d₀ (d'.calls.map DeviceCall.request)
  calls : d'.calls = d.calls.filter (·.fd = fd)

namespace Follows

theorem start (device : Device δ) (d₀ : δ) (fd : Fd) : device.Follows d₀ fd ⟨d₀, []⟩ ⟨d₀, []⟩ :=
  ⟨rfl, rfl, rfl⟩

theorem state_serve (q : DeviceRequest)
    (hstate : d.state = device.after d₀ (d.calls.map DeviceCall.request)) :
    (device.serve q d.state).2 = device.after d₀
      ((d.calls ++ [(device.serve q d.state).1]).map DeviceCall.request) := by
  rw [List.map_append, List.map_singleton, serve_request, after_concat, ← hstate]

theorem serve (hd : device.Separable d₀) (q : DeviceRequest) (h : device.Follows d₀ q.fd d d') :
    Agree (device.Follows d₀ q.fd) (device.recorded.serve q d) (device.recorded.serve q d') := by
  have hanswer : (device.serve q d.state).1 = (device.serve q d'.state).1 := by
    rw [h.state, h.state']
    apply hd
    rw [DeviceCall.requests_on, DeviceCall.requests_on, h.calls, List.filter_filter]
    simp only [Bool.and_self]
  rw [recorded_serve, recorded_serve, ← hanswer]
  refine .same _ ⟨state_serve q h.state, hanswer ▸ state_serve q h.state', ?_⟩
  rw [List.filter_append, List.filter_cons, if_pos (decide_eq_true (device.serve_fd q d.state)),
    h.calls, List.filter_nil]

theorem serve_other {q : DeviceRequest} (hfd : q.fd ≠ fd) (h : device.Follows d₀ fd d d') :
    device.Follows d₀ fd (device.recorded.serve q d).2 d' := by
  have hother : (device.serve q d.state).1.fd ≠ fd := by
    rwa [serve_fd]
  rw [recorded_serve]
  refine ⟨state_serve q h.state, h.state', ?_⟩
  rw [List.filter_append, List.filter_cons, if_neg (mt of_decide_eq_true hother), List.filter_nil,
    List.append_nil]
  exact h.calls

theorem sim (hd : device.Separable d₀) (fd : Fd) :
    device.recorded.Sim fd (device.Follows d₀ fd) := by
  refine .of_serve fun q d d' hq h => ?_
  subst hq
  exact h.serve hd q

theorem sim_other {other : Fd} (hother : other ≠ fd) (d' : Recorded δ DeviceCall) :
    device.recorded.Sim other fun e e' => e = e' ∧ device.Follows d₀ fd e d' := by
  refine .of_serve fun q e e' hq h => ?_
  obtain ⟨rfl, h⟩ := h
  exact .same _ ⟨rfl, h.serve_other (hq ▸ hother)⟩

theorem driveMove (hd : device.Separable d₀) (asyncReads : Bool) {r : Read}
    (h : device.Follows d₀ r.fd d d') :
    (device.recorded.driveMove asyncReads r d).1 = (device.recorded.driveMove asyncReads r d').1 ∧
      device.Follows d₀ r.fd (device.recorded.driveMove asyncReads r d).2
        (device.recorded.driveMove asyncReads r d').2 := by
  have hagree := (sim hd r.fd).driveMove asyncReads h
  generalize device.recorded.driveMove asyncReads r d = x at hagree ⊢
  generalize device.recorded.driveMove asyncReads r d' = y at hagree ⊢
  cases hagree with
  | same move h => exact ⟨rfl, h⟩

theorem driveMove_other (asyncReads : Bool) {r : Read} (hr : r.fd ≠ fd)
    (h : device.Follows d₀ fd d d') :
    device.Follows d₀ fd (device.recorded.driveMove asyncReads r d).2 d' := by
  have hagree := (sim_other hr d').driveMove asyncReads ⟨rfl, h⟩
  generalize device.recorded.driveMove asyncReads r d = x at hagree ⊢
  cases hagree with
  | same move h => exact h.2

end Follows
end Device

theorem ScriptedDevice.separable (s : State) : device.Separable s := by
  refine .of_parts (fun fd s => (s.script fd, s.asked.lookup fd)) (fun q d d' h => ⟨?_, ?_⟩) ?_
  · obtain ⟨hscript, hasked⟩ := Prod.mk.inj h
    cases q <;> dsimp only [DeviceRequest.fd] at hscript hasked <;>
      simp only [Device.serve, device, Prod.map, hscript, hasked]
  · cases q with
    | issue fd buffer count =>
      have hlookup : ∀ asked, ((fd, count) :: asked).lookup fd = some count :=
        fun asked => List.lookup_cons_self
      exact Prod.ext (Prod.mk.inj h).1 ((hlookup d.asked).trans (hlookup d'.asked).symm)
    | _ => exact h
  · intro q d fd hfd
    cases q with
    | issue other buffer count =>
      have hne : (fd == other) = false := beq_false_of_ne hfd.symm
      have hlookup : ((other, count) :: d.asked).lookup fd = d.asked.lookup fd := by
        rw [List.lookup_cons, hne]
      exact congrArg (d.script fd, ·) hlookup
    | _ => rfl

end PagedKernel
