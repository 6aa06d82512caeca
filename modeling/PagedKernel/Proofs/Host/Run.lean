import PagedKernel.Proofs.Kernel.Custody

/-! Address spaces on one machine, in the hands of someone who takes frames from the
pool and passes them on. The spaces are asked to map and unmap in any order. Between
the calls frames go to and from the pool, and any memory is written but the
directories and tables of the spaces. -/

namespace PagedKernel

inductive SpaceCall where
  | assignOwned (pa : PhysicalAddress) (va : VirtualAddress) (writable user : Bool)
  | assignBorrowed (pa : PhysicalAddress) (va : VirtualAddress) (writable : Bool)
  | unassign (start count : Nat)
  | reserveRange (start count : Nat)

namespace SpaceCall

def perform : SpaceCall → Call PagingError Mmu Unit
  | assignOwned pa va writable user => Mmu.assignOwned pa va writable user
  | assignBorrowed pa va writable => Mmu.assignBorrowed pa va writable
  | unassign start count => Mmu.unassign start count
  | reserveRange start count => Mmu.reserveRange start count

/-- The frame that belongs to the space once the call is answered. -/
def gain : SpaceCall → Option Frame
  | assignOwned pa _ _ _ => some pa.frame
  | _ => none

variable {v w : Mmu} {gap : Prop} {c : SpaceCall}

def Effect (v w : Mmu) : SpaceCall → Prop
  | assignOwned pa va writable user =>
    Mmu.Assigned v w va.pageNumber (.ofFrame pa.frame (.leaf writable user false))
  | assignBorrowed pa va writable =>
    Mmu.Assigned v w va.pageNumber (.ofFrame pa.frame (.leaf writable false true))
  | unassign start count => Mmu.Unassigned v w start count
  | reserveRange start count => ∃ h : start + count ≤ pageCount,
    w = v.withPages (v.space.virtualPages.fillFrom false start (start + count) h)

/-- Why a call is refused. -/
def Refused (v : Mmu) (e : PagingError) : SpaceCall → Prop
  | assignOwned _ va _ _ => Mmu.AssignRefused v va e
  | assignBorrowed _ va _ => Mmu.AssignRefused v va e
  | unassign start count => Mmu.UnassignRefused v start count e
  | reserveRange start count => pageCount < start + count ∧ e = .outOfRange start count

theorem perform_meets (hv : v.Sound) (hr : ∀ f, v.available f → v.machine.ram.installed f ∨ gap)
    (c : SpaceCall) (hf : ∀ f, c.gain = some f → ¬ v.Covers f) :
    c.perform.Meets gap v (fun _ w => c.Effect v w) fun e w => w = v ∧ c.Refused v e := by
  cases c with
  | assignOwned pa va writable user =>
    exact Mmu.assign_meets hv hr pa va _ fun _ => hf pa.frame rfl
  | assignBorrowed pa va writable => exact Mmu.assign_meets hv hr pa va _ nofun
  | unassign start count => exact Mmu.unassign_meets hv start count
  | reserveRange start count =>
    simp only [perform, Mmu.reserveRange, Mmu.markRange]
    split
    · next h => exact Call.lift_meets ((Op.modify_gives _).meets ⟨h, rfl⟩)
    · next h => exact Call.throw_meets ⟨rfl, Nat.lt_of_not_le h, rfl⟩

namespace Effect

theorem sound (hv : v.Sound) (h : c.Effect v w) : w.Sound := by
  cases c with
  | assignOwned => exact Mmu.Assigned.sound h
  | assignBorrowed => exact Mmu.Assigned.sound h
  | unassign => exact (Mmu.Unassigned.toCleared h).sound
  | reserveRange start count =>
    obtain ⟨hle, rfl⟩ := h
    have hoffer := @Mmu.isAvailable_fillFrom v false start (start + count) hle
    refine hv.withPages (fun page ha => ?_) ?_
    · rw [hoffer] at ha
      split at ha
      · cases ha
      · exact hv.offered ha
    · rw [hoffer, hv.null.1, ite_self]

theorem step (h : c.Effect v w) : Mmu.Step c.gain v w := by
  cases c with
  | assignOwned => exact Mmu.Assigned.step h
  | assignBorrowed => exact Mmu.Assigned.step h
  | unassign => exact (Mmu.Unassigned.toCleared h).step
  | reserveRange =>
    obtain ⟨-, rfl⟩ := h
    exact ⟨fun _ => .rfl, rfl, fun f => (or_iff_left nofun).symm, fun _ _ => rfl⟩

theorem trimmed (ht : v.Trimmed) (h : c.Effect v w) : w.Trimmed := by
  cases c with
  | assignOwned => exact Mmu.Assigned.trimmed h rfl ht
  | assignBorrowed => exact Mmu.Assigned.trimmed h rfl ht
  | unassign => exact (Mmu.Unassigned.toCleared h).trimmed ht
  | reserveRange =>
    obtain ⟨-, rfl⟩ := h
    exact ht

theorem guarded (hg : v.Guarded) (h : c.Effect v w) : w.Guarded := by
  cases c with
  | assignOwned => exact Mmu.Assigned.guarded h hg
  | assignBorrowed => exact Mmu.Assigned.guarded h hg
  | unassign => exact (Mmu.Unassigned.toCleared h).guarded hg
  | reserveRange =>
    obtain ⟨-, rfl⟩ := h
    exact hg.congr rfl rfl

end Effect

end SpaceCall

/-- A machine, the spaces on it, and the frames that were taken from the pool and not
passed on since. -/
structure SpaceHost where
  machine : Machine
  spaces : List AddressSpace
  hand : List Frame

namespace SpaceHost

def machinePart : Focus SpaceHost Machine :=
  ⟨fun ⟨machine, spaces, hand⟩ => (machine, fun machine => ⟨machine, spaces, hand⟩)⟩

def spacePart (i : Nat) (space : AddressSpace) : Focus SpaceHost Mmu :=
  ⟨fun ⟨machine, spaces, hand⟩ => (⟨machine, space⟩, fun ⟨machine, space⟩ =>
    ⟨machine, spaces.set i space, hand⟩)⟩

def initial (ram : Ram) : SpaceHost :=
  ⟨⟨ram, .empty⟩, [], []⟩

def space? (h : SpaceHost) (i : Nat) : Option AddressSpace :=
  h.spaces[i]?

def Holds (h : SpaceHost) (r : Mmu.Role) (f : Frame) : Prop :=
  ∃ i s, h.space? i = some s ∧ (Mmu.mk h.machine s).held r = some f

/-! What is done on a host -/

def addSpace (space : AddressSpace) : Op SpaceHost Unit :=
  Op.modify fun ⟨machine, spaces, hand⟩ => ⟨machine, spaces ++ [space], hand⟩

def pickUp (f : Frame) : Op SpaceHost Unit :=
  Op.modify fun ⟨machine, spaces, hand⟩ => ⟨machine, spaces, f :: hand⟩

def passOn (gone : Option Frame) : Op SpaceHost Unit :=
  Op.modify fun ⟨machine, spaces, hand⟩ => ⟨machine, spaces, hand.filter (gone ≠ some ·)⟩

def create : Call PagingError SpaceHost Unit := do
  let space ← Call.zoom machinePart AddressSpace.create
  addSpace space

def call (i : Nat) (c : SpaceCall) : Call PagingError SpaceHost Unit := do
  match ← (Op.read (·.space? i) : Op SpaceHost (Option AddressSpace)) with
  | none => return ()
  | some space =>
    Call.zoom (spacePart i space) c.perform
    passOn c.gain

/-- How frames go between the pool and the hand. -/
inductive Deal where
  | take
  | give (f : Frame)
  | reserve (f : Frame)
  | offer (first count : Nat)

def Deal.perform : Deal → Op SpaceHost Unit
  | take => do
    match ← Op.zoom machinePart Machine.takeFrame with
    | none => return ()
    | some f => pickUp f
  | give f => do
    let _ ← Op.zoom machinePart (Machine.freeFrame f)
    passOn (some f)
  | reserve f => do
    let wasAvailable ← Op.read fun h : SpaceHost => h.machine.pool.isAvailable f
    let _ ← Op.zoom machinePart (Machine.reserveFrame f)
    if wasAvailable then pickUp f
  | offer first count => Op.zoom machinePart (Machine.releaseRange first count)

inductive Action where
  | create
  | call (i : Nat) (c : SpaceCall)
  | deal (d : Deal)
  | write (f : Frame) (change : FrameWords → FrameWords)

def Action.perform : Action → Call PagingError SpaceHost Unit
  | create => SpaceHost.create
  | call i c => SpaceHost.call i c
  | deal d => liftM d.perform
  | write f change => Call.zoomOp machinePart (Machine.changeFrame f change)

/-- Only a frame in hand is given back. New frames are offered only if nobody has them. -/
def Deal.Allowed (h : SpaceHost) : Deal → Prop
  | give f => f ∈ h.hand
  | offer first count => ∀ f, first ≤ f.index.val → f.index.val < first + count →
    f ∉ h.hand ∧ ∀ r, ¬ h.Holds r f
  | _ => True

/-- Only a frame in hand is given to a space, and no directory and no table is written. -/
def Action.Allowed (h : SpaceHost) : Action → Prop
  | create => True
  | call _ c => ∀ f, c.gain = some f → f ∈ h.hand
  | deal d => d.Allowed h
  | write f _ => h.machine.ram.installed f ∧ ¬ h.Holds .directory f ∧
    ∀ slot, ¬ h.Holds (.table slot) f

/-- The states of a run. It goes on after a call was answered or refused, and stops when
one faults. -/
inductive Reachable : SpaceHost → Prop
  | initial (ram : Ram) : Reachable (initial ram)
  | step {h : SpaceHost} {events : Array Event} {r : Except PagingError Unit} {t : Traced SpaceHost}
    (a : Action) (ha : a.Allowed h) (hrun : a.perform.run ⟨h, events⟩ = .ok r t) :
    Reachable h → Reachable t.state

def Action.isAllowed (h : SpaceHost) : Action → Bool
  | create => true
  | call _ c => c.gain.all (· ∈ h.hand)
  | deal .take => true
  | deal (.give f) => f ∈ h.hand
  | deal (.reserve _) => true
  | deal (.offer ..) => h.hand.isEmpty && h.spaces.isEmpty
  | write .. => false

theorem Action.allowed_of_isAllowed {h : SpaceHost} {a : Action} (ha : a.isAllowed h = true) :
    a.Allowed h := by
  cases a with
  | create => trivial
  | call i c =>
    intro f hf
    simpa [isAllowed, hf] using ha
  | deal d =>
    cases d with
    | take => trivial
    | give f => exact (decide_eq_true_iff (p := f ∈ h.hand)).mp ha
    | reserve f => trivial
    | offer first count =>
      simp only [isAllowed, Bool.and_eq_true, List.isEmpty_iff] at ha
      intro f _ _
      refine ⟨by simp [ha.1], ?_⟩
      rintro r ⟨i, s, hs, -⟩
      simp [space?, ha.2] at hs
  | write f change => cases ha

def after (h : SpaceHost) (a : Action) : Option SpaceHost :=
  if a.isAllowed h then
    match a.perform.run ⟨h, #[]⟩ with
    | .ok _ t => some t.state
    | .error _ _ => none
  else none

theorem reachable_of_after {h h' : SpaceHost} (hr : Reachable h) {actions : List Action}
    (hrun : actions.foldlM after h = some h') : Reachable h' := by
  induction actions generalizing h with
  | nil =>
    cases hrun
    exact hr
  | cons a rest ih =>
    rw [List.foldlM_cons, Option.bind_eq_bind, Option.bind_eq_some_iff] at hrun
    obtain ⟨next, hnext, hrest⟩ := hrun
    refine ih ?_ hrest
    unfold after at hnext
    split at hnext
    · next ha =>
      split at hnext
      · next hok =>
        cases hnext
        exact hr.step a (Action.allowed_of_isAllowed ha) hok
      · cases hnext
    · cases hnext

/-- Eight frames, and a space that maps two pages, one owned and one borrowed, after a
third was unmapped again. -/
def twoPages : Option SpaceHost :=
  [.deal (.offer 0 8), .create, .deal .take, .deal .take,
    .call 0 (.assignOwned (.ofBits 4096) (.ofBits 4194304) true true),
    .call 0 (.assignBorrowed (.ofBits 20480) (.ofBits 4198400) false),
    .call 0 (.assignOwned (.ofBits 8192) (.ofBits 8388608) true false),
    .call 0 (.unassign 2048 1), .call 0 (.reserveRange 4096 2)].foldlM after
    (initial (.arena 8))

end SpaceHost
end PagedKernel
