import PagedKernel.Proofs.Io.Visits

/-! Which reads stay in the queue after a pass and which leave it. A read is known by its
slot, which it has for itself. The reads of before are those that stay and those that
leave, both in the order of the queue, and of the reads on one descriptor the oldest leave first. -/

namespace PagedKernel

structure QueueEntry.Follows (before after : QueueEntry) : Prop where
  pid : after.pid = before.pid
  read : before.read.Follows after.read

namespace QueueEntry.Follows

variable {a b c : QueueEntry}

theorem refl (e : QueueEntry) : e.Follows e :=
  ⟨rfl, .refl _⟩

theorem trans (h : a.Follows b) (h' : b.Follows c) : a.Follows c :=
  ⟨h'.pid.trans h.pid, h.read.trans h'.read⟩

end QueueEntry.Follows

namespace ReadQueue

structure Departure where
  slot : SlotId
  completion : Completion

namespace Visit

def departure? (v : Visit) : Option Departure :=
  v.result?.map fun result => ⟨v.before.read.slot, v.after.pid, v.after.read.fd, result⟩

def leaves (v : Visit) : Bool :=
  v.result?.isSome

def slot (v : Visit) : SlotId :=
  v.before.read.slot

def fd (v : Visit) : Fd :=
  v.before.read.fd

theorem completion?_eq (v : Visit) : v.completion? = v.departure?.map Departure.completion := by
  rw [completion?, departure?, Option.map_map]
  rfl

end Visit

/-- What a pass comes to, whether its reads are driven or cancelled. -/
inductive Visits : List QueueEntry → Slots → List Visit → Slots → Prop
  | done (slots : Slots) : Visits [] slots [] slots
  | skip (e : QueueEntry) {rest : List QueueEntry} {slots slots' : Slots} {visits : List Visit}
    (h : Visits rest slots visits slots') :
    Visits (e :: rest) slots (.skipped e :: visits) slots'
  | make (e : QueueEntry) {move : Move} {rest : List QueueEntry} {slots slots' : Slots}
    {visits : List Visit} (hfits : move.Fits e.read.state)
    (h : Visits rest (move.make e.read slots).2 visits slots') :
    Visits (e :: rest) slots (.made e (move.make e.read slots) :: visits) slots'

theorem pollPass_visits {δ : Type} (device : Device δ) (asyncReads : Bool) (claimed : List Fd)
    (es : List QueueEntry) (w : δ × Slots) :
    Visits es w.2 (pollPass device asyncReads claimed es w).1
      (pollPass device asyncReads claimed es w).2.2 := by
  induction es generalizing claimed w with
  | nil => exact .done _
  | cons e rest ih =>
    rw [pollPass]
    split
    · exact .skip e (ih claimed w)
    · exact .make e (device.driveMove_fits asyncReads e.read w.1) (ih _ (_, _))

theorem cancelPass_visits (selected : QueueEntry → Bool) (es : List QueueEntry) (slots : Slots) :
    Visits es slots (cancelPass selected es slots).1 (cancelPass selected es slots).2 := by
  induction es generalizing slots with
  | nil => exact .done _
  | cons e rest ih =>
    rw [cancelPass]
    split
    · exact .make e e.read.cancelMove_fits (ih _)
    · exact .skip e (ih slots)

structure Visit.Sound (slots : Slots) (v : Visit) : Prop where
  inStep : v.after.read.InStep slots
  left : ∀ result, v.result? = some result →
    slots.get? v.before.read.slot = some result ∧ v.after.read.loan = none

namespace Visits

variable {es : List QueueEntry} {slots slots' : Slots} {visits : List Visit} {id : SlotId}

theorem before_eq (h : Visits es slots visits slots') : visits.map Visit.before = es := by
  induction h with
  | done => rfl
  | skip e _ ih => exact congrArg (e :: ·) ih
  | make e _ _ ih => exact congrArg (e :: ·) ih

theorem follows (h : Visits es slots visits slots') :
    ∀ v ∈ visits, v.before.Follows v.after := by
  induction h with
  | done => exact List.forall_mem_nil _
  | skip e _ ih => exact List.forall_mem_cons.mpr ⟨.refl e, ih⟩
  | make e _ _ ih => exact List.forall_mem_cons.mpr ⟨⟨rfl, Read.make_follows _ _ _⟩, ih⟩

theorem cell (h : Visits es slots visits slots') (hid : id ∉ slotsOf es) :
    slots'.cells[id]? = slots.cells[id]? := by
  induction h with
  | done => rfl
  | skip e _ ih => exact ih (List.not_mem_of_not_mem_cons hid)
  | make e _ _ ih =>
    exact (ih (List.not_mem_of_not_mem_cons hid)).trans
      (Move.make_cell (List.ne_of_not_mem_cons hid))

theorem size (h : Visits es slots visits slots') : slots'.cells.size = slots.cells.size := by
  induction h with
  | done => rfl
  | skip _ _ ih => exact ih
  | make _ _ _ ih => exact ih.trans (Move.make_size _ _ _)

theorem get? (h : Visits es slots visits slots') {value : ReadResult}
    (hvalue : slots.get? id = some value) : slots'.get? id = some value := by
  induction h with
  | done => exact hvalue
  | skip _ _ ih => exact ih hvalue
  | make _ _ _ ih => exact ih (Move.make_get? hvalue)

theorem sound (h : Visits es slots visits slots') (hn : (slotsOf es).Nodup)
    (hes : ∀ e ∈ es, e.read.InStep slots) : ∀ v ∈ visits, v.Sound slots' := by
  induction h with
  | done => exact List.forall_mem_nil _
  | skip e hrest ih =>
    obtain ⟨hfresh, hn⟩ := List.nodup_cons.mp hn
    obtain ⟨he, hes⟩ := List.forall_mem_cons.mp hes
    refine List.forall_mem_cons.mpr ⟨⟨?_, nofun⟩, ih hn hes⟩
    exact he.congr (hrest.cell hfresh)
  | @make e move rest slots slots' visits hfits hrest ih =>
    obtain ⟨hfresh, hn⟩ := List.nodup_cons.mp hn
    obtain ⟨he, hes⟩ := List.forall_mem_cons.mp hes
    have hother : ∀ e' ∈ rest, e'.read.InStep (move.make e.read slots).2 := by
      intro e' he'
      exact (hes e' he').congr (Move.make_cell fun heq => hfresh (List.mem_map.mpr ⟨e', he', heq⟩))
    have hmade := he.make hfits
    have hcell : slots'.cells[(move.make e.read slots).1.slot]? =
        (move.make e.read slots).2.cells[(move.make e.read slots).1.slot]? := by
      rw [Move.make_slot]
      exact hrest.cell hfresh
    refine List.forall_mem_cons.mpr ⟨⟨hmade.congr hcell, ?_⟩, ih hn hother⟩
    intro result hresult
    obtain ⟨hover, hvalue⟩ := Option.ite_none_right_eq_some.mp hresult
    obtain rfl := Option.some.inj hvalue
    obtain ⟨hloan, value, hvalue, -⟩ := hmade.ended hover
    refine ⟨?_, hloan⟩
    have hfinal := hrest.get? hvalue
    rw [Move.make_slot] at hfinal
    rw [Slots.reported, hvalue]
    exact hfinal

theorem keptEntries_eq (visits : List Visit) :
    visits.filterMap Visit.kept? = (visits.filter (!·.leaves)).map Visit.after := by
  induction visits with
  | nil => rfl
  | cons v visits ih =>
    cases h : v.result? <;> simp [Visit.kept?, Visit.leaves, h, ih]

theorem exists_kept (h : Visits es slots visits slots') {e : QueueEntry}
    (he : e ∈ visits.filterMap Visit.kept?) : ∃ v ∈ visits, v.before ∈ es ∧ v.after = e := by
  rw [keptEntries_eq] at he
  obtain ⟨v, hv, rfl⟩ := List.mem_map.mp he
  have hmem := List.mem_of_mem_filter hv
  exact ⟨v, hmem, h.before_eq ▸ List.mem_map_of_mem hmem, rfl⟩

theorem slots_departed (visits : List Visit) :
    (visits.filterMap Visit.departure?).map Departure.slot =
      (visits.filter Visit.leaves).map Visit.slot := by
  induction visits with
  | nil => rfl
  | cons v visits ih =>
    cases h : v.result? <;> simp [Visit.departure?, Visit.leaves, Visit.slot, h, ih]

theorem ended_eq {ended : List Completion} (h : ended = visits.filterMap Visit.completion?) :
    ended = (visits.filterMap Visit.departure?).map Departure.completion := by
  rw [h, List.map_filterMap]
  exact List.filterMap_congr fun v _ => v.completion?_eq

theorem slotsOf_kept (h : ∀ v ∈ visits, v.before.Follows v.after) :
    slotsOf (visits.filterMap Visit.kept?) = (visits.filter (!·.leaves)).map Visit.slot := by
  rw [slotsOf, keptEntries_eq, List.map_map]
  exact List.map_congr_left fun v hv => (h v (List.mem_of_mem_filter hv)).read.slot

theorem slotsOf_eq (h : Visits es slots visits slots') :
    slotsOf es = visits.map Visit.slot := by
  rw [← h.before_eq, slotsOf, List.map_map]
  rfl

theorem divided (h : Visits es slots visits slots') :
    (slotsOf (visits.filterMap Visit.kept?) ++
      (visits.filterMap Visit.departure?).map Departure.slot).Perm (slotsOf es) := by
  rw [slotsOf_kept h.follows, slots_departed, h.slotsOf_eq, ← List.map_append]
  exact (List.perm_append_comm.trans (List.filter_append_perm _ _)).map _

theorem kept_sublist (h : Visits es slots visits slots') :
    (slotsOf (visits.filterMap Visit.kept?)).Sublist (slotsOf es) := by
  rw [slotsOf_kept h.follows, h.slotsOf_eq]
  exact List.filter_sublist.map _

theorem departed_sublist (h : Visits es slots visits slots') :
    ((visits.filterMap Visit.departure?).map Departure.slot).Sublist (slotsOf es) := by
  rw [slots_departed, h.slotsOf_eq]
  exact List.filter_sublist.map _

theorem reported (h : ∀ v ∈ visits, v.before.Follows v.after) (hs : ∀ v ∈ visits, v.Sound slots) :
    List.Forall₂ (Reported slots) ((visits.filter Visit.leaves).map Visit.before)
      (visits.filterMap Visit.completion?) := by
  induction visits with
  | nil => exact .nil
  | cons v visits ih =>
    obtain ⟨hv, h⟩ := List.forall_mem_cons.mp h
    obtain ⟨hsv, hs⟩ := List.forall_mem_cons.mp hs
    cases hr : v.result? with
    | none => simpa [Visit.leaves, Visit.completion?, hr] using ih h hs
    | some result =>
      have hc : v.completion? = some ⟨v.after.pid, v.after.read.fd, result⟩ := by
        rw [Visit.completion?, hr, Option.map_some]
      rw [List.filterMap_cons_some hc, List.filter_cons_of_pos (by rw [Visit.leaves, hr]; rfl)]
      exact .cons ⟨hv.pid, hv.read.fd, (hsv.left result hr).1⟩ (ih h hs)

theorem exists_reported (h : ∀ v ∈ visits, v.before.Follows v.after)
    (hs : ∀ v ∈ visits, v.Sound slots) {x : Departure}
    (hx : x ∈ visits.filterMap Visit.departure?) :
    ∃ e ∈ visits.map Visit.before, e.read.slot = x.slot ∧ Reported slots e x.completion := by
  obtain ⟨v, hv, hx⟩ := List.mem_filterMap.mp hx
  obtain ⟨result, hresult, rfl⟩ := Option.map_eq_some_iff.mp hx
  refine ⟨v.before, List.mem_map_of_mem hv, rfl, (h v hv).pid, (h v hv).read.fd, ?_⟩
  exact ((hs v hv).left result hresult).1

theorem kept_on (h : ∀ v ∈ visits, v.before.Follows v.after) (fd : Fd) :
    (visits.filterMap Visit.kept?).filter (·.read.fd = fd) =
      (visits.filter (·.fd = fd)).filterMap Visit.kept? := by
  induction visits with
  | nil => rfl
  | cons v visits ih =>
    obtain ⟨hv, hrest⟩ := List.forall_mem_cons.mp h
    have hfd : v.after.read.fd = v.fd := hv.read.fd
    by_cases hsame : v.fd = fd <;> cases hr : v.result? <;>
      simp [Visit.kept?, hfd, hsame, hr, ih hrest]

theorem departures_on (h : ∀ v ∈ visits, v.before.Follows v.after) (fd : Fd) :
    (visits.filterMap Visit.departure?).filter (·.completion.fd = fd) =
      (visits.filter (·.fd = fd)).filterMap Visit.departure? := by
  induction visits with
  | nil => rfl
  | cons v visits ih =>
    obtain ⟨hv, hrest⟩ := List.forall_mem_cons.mp h
    have hfd : v.after.read.fd = v.fd := hv.read.fd
    by_cases hsame : v.fd = fd <;> cases hr : v.result? <;>
      simp [Visit.departure?, hfd, hsame, hr, ih hrest]

theorem completions_on (h : ∀ v ∈ visits, v.before.Follows v.after) (fd : Fd) :
    (visits.filterMap Visit.completion?).filter (·.fd = fd) =
      (visits.filter (·.fd = fd)).filterMap Visit.completion? := by
  rw [ended_eq rfl, ended_eq rfl, List.filter_map, ← departures_on h]
  rfl

end Visits

theorem filter_append_of_pairwise {α : Type} {p : α → Bool} {l : List α}
    (h : l.Pairwise fun a b => p b = true → p a = true) :
    l.filter p ++ l.filter (!p ·) = l := by
  induction h with
  | nil => rfl
  | @cons a l ha _ ih =>
    cases hp : p a with
    | true => simp [hp, ih]
    | false =>
      have hnone : ∀ b ∈ l, p b = false := fun b hb =>
        Bool.eq_false_iff.mpr fun hb' => Bool.false_ne_true (hp.symm.trans (ha b hb hb'))
      have hempty : l.filter p = [] := List.filter_eq_nil_iff.mpr fun b hb => by simp [hnone b hb]
      have hall : l.filter (!p ·) = l := List.filter_eq_self.mpr fun b hb => by simp [hnone b hb]
      simp [hp, hempty, hall]

theorem pollPass_oldest {δ : Type} (device : Device δ) (asyncReads : Bool) (claimed : List Fd)
    (es : List QueueEntry) (w : δ × Slots) :
    (pollPass device asyncReads claimed es w).1.Pairwise
        (fun a b => a.fd = b.fd → b.leaves = true → a.leaves = true) ∧
      ∀ v ∈ (pollPass device asyncReads claimed es w).1, v.fd ∈ claimed → v.leaves = false := by
  induction es generalizing claimed w with
  | nil => exact ⟨.nil, List.forall_mem_nil _⟩
  | cons e rest ih =>
    rw [pollPass]
    split
    · next hclaimed =>
      obtain ⟨hpairs, hstay⟩ := ih claimed w
      refine ⟨.cons (fun v hv hfd hleaves => ?_) hpairs, ?_⟩
      · cases (hstay v hv (hfd ▸ hclaimed)).symm.trans hleaves
      · exact List.forall_mem_cons.mpr ⟨fun _ => rfl, hstay⟩
    · next hfree =>
      dsimp only
      split
      · next hover =>
        obtain ⟨hpairs, hstay⟩ := ih claimed (_, _)
        refine ⟨.cons (fun v _ _ _ => ?_) hpairs, List.forall_mem_cons.mpr ⟨?_, hstay⟩⟩
        · rw [Visit.leaves, Visit.made, if_pos hover]
          rfl
        · exact fun hclaimed => absurd hclaimed hfree
      · next hover =>
        obtain ⟨hpairs, hstay⟩ := ih (e.read.fd :: claimed) (_, _)
        refine ⟨.cons (fun v hv hfd hleaves => ?_) hpairs, List.forall_mem_cons.mpr ⟨?_, ?_⟩⟩
        · cases (hstay v hv (List.mem_cons.mpr (.inl hfd.symm))).symm.trans hleaves
        · exact fun hclaimed => absurd hclaimed hfree
        · exact fun v hv hfd => hstay v hv (List.mem_cons_of_mem _ hfd)

theorem pollPass_inOrder {δ : Type} (device : Device δ) (asyncReads : Bool)
    (es : List QueueEntry) (w : δ × Slots) (fd : Fd) :
    (((pollPass device asyncReads [] es w).1.filterMap Visit.departure?).filter
        (·.completion.fd = fd)).map Departure.slot ++
      slotsOf (((pollPass device asyncReads [] es w).1.filterMap Visit.kept?).filter
        (·.read.fd = fd)) = slotsOf (es.filter (·.read.fd = fd)) := by
  have hvisits := pollPass_visits device asyncReads [] es w
  have holdest := (pollPass_oldest device asyncReads [] es w).1
  generalize (pollPass device asyncReads [] es w).1 = visits at hvisits holdest
  have hfollows := hvisits.follows
  have hpairs : (visits.filter (·.fd = fd)).Pairwise
      fun a b => b.leaves = true → a.leaves = true := by
    refine (holdest.filter _).imp_of_mem fun ha hb h => h ?_
    exact (of_decide_eq_true (List.mem_filter.mp ha).2).trans
      (of_decide_eq_true (List.mem_filter.mp hb).2).symm
  rw [Visits.departures_on hfollows, Visits.kept_on hfollows, Visits.slots_departed,
    Visits.slotsOf_kept fun v hv => hfollows v (List.mem_of_mem_filter hv), ← List.map_append,
    filter_append_of_pairwise hpairs, ← hvisits.before_eq, List.filter_map, slotsOf, List.map_map]
  rfl

theorem cancelPass_eq (selected : QueueEntry → Bool) (es : List QueueEntry) (slots : Slots) :
    ((cancelPass selected es slots).1.filter Visit.leaves).map Visit.before = es.filter selected ∧
      (cancelPass selected es slots).1.filterMap Visit.kept? = es.filter (!selected ·) := by
  induction es generalizing slots with
  | nil => exact ⟨rfl, rfl⟩
  | cons e rest ih =>
    rw [cancelPass]
    split
    · next hsel =>
      obtain ⟨hleft, hkept⟩ := ih (e.read.cancelMove.make e.read slots).2
      have hover := e.read.cancelMove_ended slots
      have hleaves : (Visit.made e (e.read.cancelMove.make e.read slots)).leaves = true := by
        rw [Visit.leaves, Visit.made, if_pos hover]
        rfl
      constructor
      · rw [List.filter_cons_of_pos hsel, ← hleft]
        exact congrArg (List.map _) (List.filter_cons_of_pos hleaves)
      · rw [List.filter_cons_of_neg (by simp [hsel]), ← hkept]
        exact List.filterMap_cons_none (made_of_isTerminal hover).1
    · next hsel =>
      obtain ⟨hleft, hkept⟩ := ih slots
      have hnot := Bool.eq_false_iff.mpr hsel
      constructor
      · rw [List.filter_cons_of_neg hsel, ← hleft]
        exact congrArg (List.map _) (List.filter_cons_of_neg Bool.false_ne_true)
      · rw [List.filter_cons_of_pos (by simp [hnot]), ← hkept]
        rfl

end ReadQueue
end PagedKernel
