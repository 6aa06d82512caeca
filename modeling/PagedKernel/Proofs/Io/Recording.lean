import PagedKernel.Bench.LedgerMapper
import PagedKernel.Bench.ScriptedDevice
import PagedKernel.Proofs.Io.Step

/-! Devices and mappers that keep the calls made on them. In all else they do what the
device or the mapper does that they are made from. -/

namespace PagedKernel

structure Recorded (σ κ : Type) where
  state : σ
  calls : List κ

namespace Recorded

variable {σ κ α : Type}

def add (call : κ) (s : Recorded σ κ) : Recorded σ κ :=
  { s with calls := s.calls ++ [call] }

def ask (f : σ → α × σ) (call : α → κ) (s : Recorded σ κ) : α × Recorded σ κ :=
  match f s.state with
  | (a, state) => (a, add (call a) ⟨state, s.calls⟩)

def inner : Focus (Recorded σ κ) σ :=
  ⟨fun ⟨state, calls⟩ => (state, fun state => ⟨state, calls⟩)⟩

end Recorded

inductive DeviceCall where
  | busy (fd : Fd) (answer : Bool)
  | issue (fd : Fd) (buffer : VirtualAddress) (count : Nat)
    (answer : Except DeviceError AsyncIssue)
  | bytesReady (fd : Fd) (answer : Except DeviceError Nat)
  | seek (fd : Fd) (distance : Nat) (answer : Except DeviceError Unit)
  | syncRead (fd : Fd) (buffer : VirtualAddress) (count : Nat) (answer : Except DeviceError Nat)

namespace DeviceCall

def fd : DeviceCall → Fd
  | busy fd _ => fd
  | issue fd .. => fd
  | bytesReady fd _ => fd
  | seek fd .. => fd
  | syncRead fd .. => fd

end DeviceCall

/-- A request to a mapper. A loan is lent with an answer; to take it back is a request
even where the mapper does not answer it. -/
inductive LoanCall where
  | lend (user : VirtualAddress) (length : Nat) (answer : Except AliasError VirtualAddress)
  | takeBack (kernel : VirtualAddress) (length : Nat)

variable {δ μ : Type}

namespace Device

def recorded (device : Device δ) : Device (Recorded δ DeviceCall) where
  busy fd := Recorded.ask (device.busy fd) (.busy fd)
  issue fd buffer count := Recorded.ask (device.issue fd buffer count) (.issue fd buffer count)
  bytesReady fd := Recorded.ask (device.bytesReady fd) (.bytesReady fd)
  seek fd distance := Recorded.ask (device.seek fd distance) (.seek fd distance)
  syncRead fd buffer count :=
    Recorded.ask (device.syncRead fd buffer count) (.syncRead fd buffer count)

/-- From `d` to `d'` the device was called on one descriptor only. -/
def Extends (fd : Fd) (d d' : Recorded δ DeviceCall) : Prop :=
  ∃ calls, d'.calls = d.calls ++ calls ∧ ∀ c ∈ calls, c.fd = fd

variable {device : Device δ} {asyncReads : Bool} {fd : Fd} {r : Read}
  {d d' d'' : Recorded δ DeviceCall}

namespace Extends

theorem refl (fd : Fd) (d : Recorded δ DeviceCall) : Extends fd d d :=
  ⟨[], (List.append_nil _).symm, nofun⟩

theorem trans (h : Extends fd d d') (h' : Extends fd d' d'') : Extends fd d d'' := by
  obtain ⟨calls, hd, hfd⟩ := h
  obtain ⟨later, hd', hfd'⟩ := h'
  refine ⟨calls ++ later, by rw [hd', hd, List.append_assoc], fun c hc => ?_⟩
  rcases List.mem_append.mp hc with hc | hc
  · exact hfd c hc
  · exact hfd' c hc

theorem ask {α : Type} {f : δ → α × δ} {call : α → DeviceCall} {a : α}
    (h : Recorded.ask f call d = (a, d')) (hfd : ∀ a, (call a).fd = fd) : Extends fd d d' := by
  cases h
  exact ⟨[_], rfl, fun c hc => List.mem_singleton.mp hc ▸ hfd _⟩

end Extends

theorem advance_extends (device : Device δ) (fd : Fd) (n : Nat) (d : Recorded δ DeviceCall) :
    Extends fd d (device.recorded.advance fd n d).2 := by
  unfold advance
  split
  · next h => exact .ask h fun _ => rfl
  · next h => exact .ask h fun _ => rfl

theorem readNow_extends (device : Device δ) (r : Read) (d : Recorded δ DeviceCall) :
    Extends r.fd d (device.recorded.readNow r d).2 := by
  unfold readNow
  split
  · next h => exact .ask h fun _ => rfl
  · next h => exact .ask h fun _ => rfl

theorem pollMove_extends (device : Device δ) (r : Read) (d : Recorded δ DeviceCall) :
    Extends r.fd d (device.recorded.pollMove r d).2 := by
  unfold pollMove
  split
  · split
    · exact .refl _ _
    · exact .ask rfl fun _ => rfl
  · split
    · next h =>
      have hready : Extends r.fd d _ := .ask h fun _ => rfl
      split
      · exact hready.trans (device.advance_extends r.fd _ _)
      · split
        · exact hready
        · exact hready
    · next h => exact .ask h fun _ => rfl
  · exact .refl _ _

theorem issueMove_extends (device : Device δ) (asyncReads : Bool) (r : Read)
    (d : Recorded δ DeviceCall) : Extends r.fd d (device.recorded.issueMove asyncReads r d).2 := by
  unfold issueMove
  split
  · split
    · exact .refl _ _
    · split
      · split
        · next h => exact (Extends.ask h fun _ => rfl).trans (device.readNow_extends r _)
        · next h => exact .ask h fun _ => rfl
        · next h =>
          have hissue : Extends r.fd d _ := .ask h fun _ => rfl
          split
          · exact hissue
          · exact hissue.trans (device.advance_extends r.fd _ _)
        · next h => exact .ask h fun _ => rfl
      · exact device.readNow_extends r d
  · exact .refl _ _

theorem driveMove_extends (device : Device δ) (asyncReads : Bool) (r : Read)
    (d : Recorded δ DeviceCall) : Extends r.fd d (device.recorded.driveMove asyncReads r d).2 := by
  have hpoll := device.pollMove_extends r d
  unfold driveMove
  split
  · next h =>
    rw [h] at hpoll
    split
    · exact hpoll.trans (device.issueMove_extends asyncReads { r with state := .ready } _)
    · exact hpoll
  · next h =>
    rw [h] at hpoll
    exact hpoll

end Device

namespace AliasMapper

def recorded (mapper : AliasMapper μ) : AliasMapper (Recorded μ LoanCall) where
  lend user length := ExceptT.mk do
    let answer ← Op.zoom Recorded.inner (mapper.lend user length).run
    Op.modify (Recorded.add (.lend user length answer))
    return answer
  takeBack kernel length := ExceptT.mk do
    Op.modify (Recorded.add (.takeBack kernel length))
    Op.zoom Recorded.inner (mapper.takeBack kernel length).run

def Answers (mapper : AliasMapper μ) : Prop :=
  ∀ kernel length m, (mapper.takeBack kernel length).run.Leads False m fun _ _ => True

theorem recorded_takeBack_leads (mapper : AliasMapper μ) (kernel : VirtualAddress) (length : Nat)
    (m : Recorded μ LoanCall) :
    (mapper.recorded.takeBack kernel length).run.Leads (¬ mapper.Answers) m fun _ m' =>
      m'.calls = m.calls ++ [.takeBack kernel length] := by
  refine (Op.modify_gives _).bind_leads (Op.zoom_leads Recorded.inner ?_)
  by_cases h : mapper.Answers
  · exact ((h kernel length m.state).widen False.elim).mono fun _ _ _ => rfl
  · exact ((Op.leads_any _ _).widen fun _ => h).mono fun _ _ _ => rfl

end AliasMapper

abbrev RecordedWorld (δ μ : Type) := IoWorld (Recorded δ DeviceCall) (Recorded μ LoanCall)

def Backend.recorded (backend : Backend δ μ) :
    Backend (Recorded δ DeviceCall) (Recorded μ LoanCall) :=
  ⟨backend.device.recorded, backend.mapper.recorded, backend.asyncReads⟩

def Backend.scripted : Backend ScriptedDevice.State LedgerMapper.State :=
  ⟨ScriptedDevice.device, LedgerMapper.mapper, true⟩

/-- What has to be asked of the mapper at the end of a read with this loan. -/
def Loan.requests (loan : Option Loan) : List LoanCall :=
  (loan.map fun loan => .takeBack loan.base loan.span).toList

theorem Read.returns_recorded (mapper : AliasMapper μ) (m : Recorded μ LoanCall)
    (loan : Option Loan) :
    Returns (¬ mapper.Answers) mapper.recorded
      (fun m' => m'.calls = m.calls ++ Loan.requests loan) m loan := by
  cases loan with
  | none => exact (List.append_nil m.calls).symm
  | some loan => exact mapper.recorded_takeBack_leads loan.base loan.span m

end PagedKernel
