import PagedKernel.Proofs.Io.Loan
import PagedKernel.Proofs.Io.Queue
import PagedKernel.Proofs.Kernel.Custody

/-! What holds between two kernel calls: the frames are divided, the kernel space
borrows and process spaces own what they map, and every queued read has its slot
and its loan. The kernel space may take a turn, and so may the space of a process;
in between the others are left alone. -/

namespace PagedKernel

variable {m m' : Machine} {v w : Mmu} {s s' : AddressSpace} {pid : ProcessId}
  {users users' : ProcessId → Option AddressSpace} {slots slots' : Slots}
  {es es' : List QueueEntry} {e : QueueEntry} {managed : Frame → Prop} {gap : Prop}

def spacesOf (kernel : AddressSpace) (users : ProcessId → Option AddressSpace) :
    Option ProcessId → Option AddressSpace
  | none => some kernel
  | some pid => users pid

theorem update_spacesOf_none :
    Function.update (spacesOf s users) none (some s') = spacesOf s' users := by
  funext o
  cases o with
  | none => exact Function.update_self ..
  | some pid => exact Function.update_of_ne (Option.some_ne_none pid) ..

theorem update_spacesOf_some {after : Option AddressSpace} :
    Function.update (spacesOf s users) (some pid) after =
      spacesOf s (Function.update users pid after) := by
  funext o
  cases o with
  | none => exact Function.update_of_ne (Option.some_ne_none pid).symm ..
  | some other =>
    by_cases h : other = pid
    · subst h
      rw [Function.update_self, spacesOf, Function.update_self]
    · rw [Function.update_of_ne (fun he => h (Option.some.inj he)), spacesOf, spacesOf,
        Function.update_of_ne h]

/-- A queued read that has not ended: its slot is open, its process alive, and its
loan, if it has one, lies in the kernel space over pages of the process. -/
structure Sits (v : Mmu) (users : ProcessId → Option AddressSpace) (slots : Slots)
    (e : QueueEntry) : Prop where
  running : e.read.state.isTerminal = false
  slot : slots.Open e.read.slot
  unlent : e.read.loan = none → e.read.count = 0
  fits : ∀ {loan}, e.read.loan = some loan → loan.Fits e.read
  backed : ∃ u, users e.pid = some u ∧
    ∀ {loan}, e.read.loan = some loan → loan.Backed v ⟨v.machine, u⟩ e.read

/-- Two reads use different slots, and their loans have no page in common. -/
def Separate (a b : QueueEntry) : Prop :=
  a.read.slot ≠ b.read.slot ∧ ∀ {loan other}, a.read.loan = some loan →
    b.read.loan = some other → ∀ p, loan.Covers p → ¬ other.Covers p

/-- What holds between two calls. Frames can be touched except in the case `gap`. -/
structure Steady (managed : Frame → Prop) (gap : Prop) (v : Mmu)
    (users : ProcessId → Option AddressSpace) (slots : Slots) (es : List QueueEntry) :
    Prop where
  custody : Custody managed v.machine (spacesOf v.space users)
  reach : ∀ f, managed f → v.machine.ram.installed f ∨ gap
  borrowed : ∀ {p}, (v.leaf p).isPresent = true → (v.leaf p).isBorrowed = true
  owned : ∀ {pid u p}, users pid = some u → ((Mmu.mk v.machine u).leaf p).isPresent = true →
    ((Mmu.mk v.machine u).leaf p).isBorrowed = false
  sits : ∀ e ∈ es, Sits v users slots e
  separate : es.Pairwise Separate

/-- After a turn of one process the kernel is steady, and no word of the frames of
the kernel space or of another process has changed. -/
structure Spared (managed : Frame → Prop) (gap : Prop) (users : ProcessId → Option AddressSpace)
    (v : Mmu) (slots : Slots) (es : List QueueEntry) (pid : ProcessId) (m' : Machine)
    (after : Option AddressSpace) : Prop where
  steady : Steady managed gap ⟨m', v.space⟩ (Function.update users pid after) slots es
  kernel : Untouched v.machine m' v.space
  others : ∀ other u, other ≠ pid → users other = some u → Untouched v.machine m' u

theorem Sits.move (h : Sits v users slots e) (hopen : slots'.Open e.read.slot)
    (hk : ∀ {loan}, e.read.loan = some loan → ∀ p, loan.Covers p → w.leaf p = v.leaf p)
    (hu : ∀ u, users e.pid = some u → ∃ u', users' e.pid = some u' ∧
      ∀ {loan}, e.read.loan = some loan → ∀ i < loan.pages,
        (Mmu.mk w.machine u').leaf (e.read.userBuffer.pageNumber + i) =
          (Mmu.mk v.machine u).leaf (e.read.userBuffer.pageNumber + i)) :
    Sits w users' slots' e where
  running := h.running
  slot := hopen
  unlent := h.unlent
  fits := h.fits
  backed := by
    obtain ⟨u, hpid, hback⟩ := h.backed
    obtain ⟨u', hpid', hsame⟩ := hu u hpid
    refine ⟨u', hpid', ?_⟩
    intro loan hl i hi
    have hcovers : loan.Covers (loan.base.pageNumber + i) := ⟨Nat.le_add_right _ _, by omega⟩
    rw [hsame hl i hi, hk hl _ hcovers]
    exact hback hl i hi

namespace Steady

theorem sound (h : Steady managed gap v users slots es) : v.Sound :=
  h.custody.sound (o := none) rfl

theorem trimmed (h : Steady managed gap v users slots es) : v.Trimmed :=
  h.custody.trimmed (o := none) rfl

theorem userSound (h : Steady managed gap v users slots es) {u : AddressSpace}
    (hu : users pid = some u) : (Mmu.mk v.machine u).Sound :=
  h.custody.sound (o := some pid) hu

theorem userTrimmed (h : Steady managed gap v users slots es) {u : AddressSpace}
    (hu : users pid = some u) : (Mmu.mk v.machine u).Trimmed :=
  h.custody.trimmed (o := some pid) hu

theorem managed_of_covers (h : Steady managed gap v users slots es) {o : Option ProcessId}
    {u : AddressSpace} (hu : spacesOf v.space users o = some u) {f : Frame}
    (hf : (Mmu.mk v.machine u).Covers f) : managed f := by
  rw [h.custody.managed]
  rcases (Mmu.covers_iff _ f).mp hf with ha | ⟨r, hr⟩
  · exact .inl ha
  · exact .inr ⟨o, u, r, hu, hr⟩

theorem reaches (h : Steady managed gap v users slots es) : v.Reaches gap :=
  fun f hf => h.reach f (h.managed_of_covers (o := none) rfl hf)

theorem userReaches (h : Steady managed gap v users slots es) {u : AddressSpace}
    (hu : users pid = some u) : (Mmu.mk v.machine u).Reaches gap :=
  fun f hf => h.reach f (h.managed_of_covers (o := some pid) hu hf)

theorem kernelTurn (h : Steady managed gap v users slots es) (hw : w.Sound) (ht : w.Trimmed)
    (hstep : Mmu.Step none v w)
    (hb : ∀ {p}, (w.leaf p).isPresent = true → (w.leaf p).isBorrowed = true)
    (hsits : (∀ pid u, users pid = some u → Untouched v.machine w.machine u) →
      ∀ e ∈ es', Sits w users slots' e)
    (hsep : es'.Pairwise Separate) :
    Steady managed gap w users slots' es' ∧
      ∀ pid u, users pid = some u → Untouched v.machine w.machine u := by
  have hturn : Turn v.machine w.machine (spacesOf v.space users none) (some w.space) :=
    Turn.step hw ht hstep
  have huntouched : ∀ pid u, users pid = some u → Untouched v.machine w.machine u :=
    fun pid u hu => h.custody.untouched (q := some pid) hturn (Option.some_ne_none pid) hu
  have hcustody := h.custody.turn hturn
  rw [update_spacesOf_none] at hcustody
  refine ⟨⟨hcustody, ?_, hb, ?_, hsits huntouched, hsep⟩, huntouched⟩
  · intro f hf
    rw [hturn.installed]
    exact h.reach f hf
  · intro pid u p hu
    rw [(huntouched pid u hu).view.2.2.1]
    exact h.owned hu

theorem userTurn (h : Steady managed gap v users slots es) {after : Option AddressSpace}
    (hturn : Turn v.machine m' (users pid) after)
    (ho : ∀ u, after = some u → ∀ p, ((Mmu.mk m' u).leaf p).isPresent = true →
      ((Mmu.mk m' u).leaf p).isBorrowed = false)
    (hown : ∀ e ∈ es, e.pid = pid → ∀ u, users pid = some u → ∃ u', after = some u' ∧
      ∀ {loan}, e.read.loan = some loan → ∀ i < loan.pages,
        (Mmu.mk m' u').leaf (e.read.userBuffer.pageNumber + i) =
          (Mmu.mk v.machine u).leaf (e.read.userBuffer.pageNumber + i)) :
    Spared managed gap users v slots es pid m' after := by
  have hturn' : Turn v.machine m' (spacesOf v.space users (some pid)) after := hturn
  have hkernel : Untouched v.machine m' v.space :=
    h.custody.untouched (q := none) hturn' (Option.some_ne_none pid).symm rfl
  have hothers : ∀ other u, other ≠ pid → users other = some u → Untouched v.machine m' u :=
    fun other u hne hu => h.custody.untouched (q := some other) hturn'
      (fun he => hne (Option.some.inj he)) hu
  have hcustody := h.custody.turn hturn'
  rw [update_spacesOf_some] at hcustody
  have hleaf : (Mmu.mk m' v.space).leaf = v.leaf := hkernel.view.2.2.1
  refine ⟨⟨hcustody, ?_, ?_, ?_, ?_, h.separate⟩, hkernel, hothers⟩
  · intro f hf
    rw [hturn.installed]
    exact h.reach f hf
  · intro p
    rw [hleaf]
    exact h.borrowed
  · intro other u p hu
    by_cases he : other = pid
    · subst he
      rw [Function.update_self] at hu
      exact ho u hu p
    · rw [Function.update_of_ne he] at hu
      rw [(hothers other u he hu).view.2.2.1]
      exact h.owned hu
  · intro e he
    refine (h.sits e he).move (h.sits e he).slot (fun _ p _ => by rw [hleaf]) ?_
    intro u hu
    by_cases hpid : e.pid = pid
    · obtain ⟨u', hafter, hsame⟩ := hown e he hpid u (hpid ▸ hu)
      refine ⟨u', ?_, hsame⟩
      rw [hpid, Function.update_self, hafter]
    · refine ⟨u, by rw [Function.update_of_ne hpid, hu], ?_⟩
      intro loan _ i _
      rw [(hothers e.pid u hpid hu).view.2.2.1]

end Steady
end PagedKernel
