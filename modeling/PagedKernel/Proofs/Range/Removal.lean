import PagedKernel.Proofs.Host.Invariant
import PagedKernel.Proofs.Range.Fresh

/-! Taking a range of pages down, whatever the range holds. It is refused for its first
flaw and changes nothing, or each of its pages is gone, with the frames the space owned
there and the tables that mapped nothing else; the rest stays as it was. -/

namespace PagedKernel.Mmu

variable {v w : Mmu} {start n : Nat}

/-- A linked slot whose mapped pages all lie in a range. -/
def EmptiedBy (v : Mmu) (start n slot : Nat) : Prop :=
  (∃ table, v.table? slot = some table) ∧
    ∀ p, p / 1024 = slot → (v.leaf p).isPresent = true → start ≤ p ∧ p < start + n

/-- A range of pages is gone, and nothing else. -/
structure Withdrawn (v w : Mmu) (start n : Nat) : Prop where
  leaf : ∀ p, w.leaf p = if start ≤ p ∧ p < start + n then .zero else v.leaf p
  offered : ∀ p, w.space.isAvailable p =
    if start ≤ p ∧ p < start + n then true else v.space.isAvailable p
  emptied : ∀ slot, v.EmptiedBy start n slot → w.link slot = .zero
  linked : ∀ slot, ¬ v.EmptiedBy start n slot → w.link slot = v.link slot
  /-- No frame is taken. -/
  available : ∀ f, v.available f → w.available f
  freed : ∀ f, w.available f ∧ ¬ v.available f ↔
    (∃ p, start ≤ p ∧ p < start + n ∧ (v.leaf p).isBorrowed = false ∧ (v.leaf p).frame = f) ∨
      ∃ slot, v.EmptiedBy start n slot ∧ v.table? slot = some f

namespace Cleared

theorem present_of_linked (h : Cleared v w start n) (ht : v.Trimmed) {slot : Nat} {table : Frame}
    (hs : w.table? slot = some table) :
    ∃ p, p / 1024 = slot ∧ (v.leaf p).isPresent = true ∧ ¬ (start ≤ p ∧ p < start + n) := by
  obtain ⟨i, hi⟩ := h.trimmed ht slot table hs
  obtain ⟨hlt, hp⟩ := mem_presentBelow_iff.mp hi
  rw [h.leaf] at hp
  split at hp
  · cases hp
  · next hout => exact ⟨1024 * slot + i, by omega, hp, hout⟩

theorem link_of_emptied (h : Cleared v w start n) (ht : v.Trimmed) {slot : Nat}
    (he : v.EmptiedBy start n slot) : w.link slot = .zero := by
  obtain ⟨⟨table, htable⟩, hall⟩ := he
  rcases h.links slot with hl | ⟨-, hl⟩
  · have hs : w.table? slot = some table := by rw [← htable, table?, table?, hl]
    obtain ⟨p, hp, hpresent, hout⟩ := h.present_of_linked ht hs
    exact absurd (hall p hp hpresent) hout
  · exact hl

theorem link_of_not_emptied (h : Cleared v w start n) {slot : Nat}
    (he : ¬ v.EmptiedBy start n slot) : w.link slot = v.link slot := by
  rcases h.links slot with hl | ⟨htable, hl⟩
  · exact hl
  · refine absurd ⟨htable, fun p hp hpresent => Classical.byContradiction fun hout => ?_⟩ he
    have hnone : w.table? (p / 1024) = none := by
      rw [hp, table?, hl]
      rfl
    have hleaf := h.leaf p
    rw [leaf_of_unlinked hnone, if_neg hout] at hleaf
    rw [← hleaf] at hpresent
    cases hpresent

theorem table?_eq_none_iff (h : Cleared v w start n) (ht : v.Trimmed) {slot : Nat} {table : Frame}
    (hs : v.table? slot = some table) : w.table? slot = none ↔ v.EmptiedBy start n slot := by
  constructor
  · intro hnone
    refine Classical.byContradiction fun he => ?_
    rw [table?, h.link_of_not_emptied he, ← table?, hs] at hnone
    cases hnone
  · intro he
    rw [table?, h.link_of_emptied ht he]
    rfl

theorem held_kept (h : Cleared v w start n) (r : Role) (f : Frame) (hr : w.held r = some f) :
    v.held r = some f := by
  cases r with
  | directory => exact (congrArg some h.step.directory.symm).trans hr
  | table slot => exact h.tables slot f hr
  | page p => exact (h.pages p f hr).1

theorem held_page (h : Cleared v w start n) {p : Nat} {f : Frame}
    (hp : v.held (.page p) = some f) :
    w.held (.page p) = none ↔ start ≤ p ∧ p < start + n := by
  simp only [held, h.leaf]
  split
  · next hin => exact iff_of_true rfl hin
  · next hout =>
    refine iff_of_false (fun hnone => ?_) hout
    exact Option.some_ne_none f (hp.symm.trans hnone)

theorem released_iff (h : Cleared v w start n) (ht : v.Trimmed)
    (hp : FirstAbsent v start n none) (f : Frame) :
    (∃ r, w.held r = none ∧ v.held r = some f) ↔
      (∃ p, start ≤ p ∧ p < start + n ∧ (v.leaf p).isBorrowed = false ∧ (v.leaf p).frame = f) ∨
        ∃ slot, v.EmptiedBy start n slot ∧ v.table? slot = some f := by
  constructor
  · rintro ⟨r, hnone, hr⟩
    cases r with
    | directory => cases hnone
    | table slot => exact .inr ⟨slot, (h.table?_eq_none_iff ht hr).mp hnone, hr⟩
    | page p =>
      obtain ⟨hle, hlt⟩ := (h.held_page hr).mp hnone
      obtain ⟨-, hb, hf⟩ := held_page_eq_some.mp hr
      exact .inl ⟨p, hle, hlt, hb, hf⟩
  · rintro (⟨p, hle, hlt, hb, hf⟩ | ⟨slot, he, hs⟩)
    · have hheld := held_page_eq_some.mpr ⟨hp p hle hlt, hb, hf⟩
      exact ⟨.page p, (h.held_page hheld).mpr ⟨hle, hlt⟩, hheld⟩
    · exact ⟨.table slot, (h.table?_eq_none_iff ht hs).mpr he, hs⟩

end Cleared

theorem Unassigned.withdrawn (hv : v.Sound) (ht : v.Trimmed) (h : Unassigned v w start n) :
    Withdrawn v w start n := by
  have hc := h.toCleared
  have hmoved := fun f => available_iff_of_held hc.sound hv
    (fun f => (hc.step.covers_iff f).symm) hc.held_kept (f := f)
  have hreleased := hc.released_iff ht h.present
  refine ⟨hc.leaf, h.offered, fun _ => hc.link_of_emptied ht, fun _ => hc.link_of_not_emptied,
    fun f hf => (hmoved f).mpr (.inl hf), fun f => ?_⟩
  rw [hmoved, hreleased, or_and_right, and_not_self_iff, false_or]
  refine and_iff_left_of_imp fun hr => ?_
  obtain ⟨r, -, hheld⟩ := (hreleased f).mpr hr
  exact hv.not_available hheld

theorem UnassignRefused.unique {e e' : PagingError} (h : UnassignRefused v start n e)
    (h' : UnassignRefused v start n e') : e = e' := by
  cases h with
  | outOfRange hout =>
    cases h' with
    | outOfRange => rfl
    | notPresent hin => omega
  | @notPresent page hin hp =>
    cases h' with
    | outOfRange hout => omega
    | @notPresent page' _ hp' =>
      obtain ⟨hle, hlt, habsent, hbefore⟩ := hp
      obtain ⟨hle', hlt', habsent', hbefore'⟩ := hp'
      rcases Nat.lt_trichotomy page page' with hlt | rfl | hlt
      · rw [hbefore' page hle hlt] at habsent
        cases habsent
      · rfl
      · rw [hbefore page' hle' hlt] at habsent'
        cases habsent'

theorem Unassigned.not_refused (h : Unassigned v w start n) (e : PagingError) :
    ¬ UnassignRefused v start n e := by
  intro he
  cases he with
  | outOfRange hout => exact absurd h.inside (Nat.not_le.mpr hout)
  | @notPresent page hin hp =>
    obtain ⟨hle, hlt, habsent, -⟩ := hp
    rw [h.present page hle hlt] at habsent
    cases habsent

theorem mem_pages_iff (va : VirtualAddress) {length : Nat} (h0 : length ≠ 0) (p : Nat) :
    va.pageNumber ≤ p ∧ p < va.pageNumber + pagesSpanning (length + va.offset.toNat) ↔
      ∃ a, va.toNat ≤ a ∧ a < va.toNat + length ∧ a / 4096 = p := by
  have hva := va.toNat_eq
  have hoffset : va.offset.toNat < 4096 := UInt32.lt_iff_toNat_lt.mp va.offset_lt
  simp only [pagesSpanning]
  constructor
  · rintro ⟨hle, hlt⟩
    exact ⟨max va.toNat (p * 4096), by omega, by omega, by omega⟩
  · rintro ⟨a, hle, hlt, rfl⟩
    omega

theorem unassign_exact (hv : v.Sound) (ht : v.Trimmed) :
    (∀ start n events, ∃ r t, (unassign start n).run ⟨v, events⟩ = .ok r t ∧
      (∀ e, r = .error e ↔ UnassignRefused v start n e) ∧ (∀ e, r = .error e → t.state = v) ∧
      (r = .ok () → Withdrawn v t.state start n)) ∧
    ∀ va length, length ≠ 0 → length + va.offset.toNat ≤ maxLength →
      ∃ n, (∀ p, va.pageNumber ≤ p ∧ p < va.pageNumber + n ↔
          ∃ a, va.toNat ≤ a ∧ a < va.toNat + length ∧ a / 4096 = p) ∧
        unmap va length = (do
          (unassign va.pageNumber n).adapt MappingError.ofPaging
          Call.record (.range (.unmapped n va.page))) := by
  refine ⟨fun start n events => ?_, fun va length h0 hmax =>
    ⟨_, mem_pages_iff va h0, unmap_eq va h0 hmax⟩⟩
  obtain ⟨r, t, hrun, hpost⟩ := (unassign_meets hv start n).exists_answer events
  refine ⟨r, t, hrun, ?_⟩
  cases r with
  | ok u =>
    refine ⟨fun e => iff_of_false nofun (hpost.not_refused e), nofun, fun _ => ?_⟩
    exact hpost.withdrawn hv ht
  | error cause =>
    obtain ⟨hsame, hcause⟩ := hpost
    refine ⟨fun e => ⟨?_, fun he => congrArg _ (hcause.unique he)⟩, fun _ _ => hsame, nofun⟩
    rintro ⟨⟩
    exact hcause

theorem unassign_exact_twoPages : ∃ v t, SpaceHost.twoPagesSpace = some v ∧ v.Sound ∧ v.Trimmed ∧
    (unassign 1024 2).run ⟨v, #[]⟩ = .ok (.ok ()) t ∧ Withdrawn v t.state 1024 2 ∧
    (v.leaf 1024).isBorrowed = false ∧ (v.leaf 1025).isBorrowed = true ∧
    UnassignRefused v 1024 3 (.notPresent 1026) := by
  have hsome : (SpaceHost.twoPagesSpace.any fun v =>
      ((unassign 1024 2).answer? v).isSome && !(v.leaf 1024).isBorrowed &&
        (v.leaf 1025).isBorrowed && (v.leaf 1024).isPresent && (v.leaf 1025).isPresent &&
        !(v.leaf 1026).isPresent) = true := by
    decide +kernel
  obtain ⟨v, hv, hand⟩ := (Option.any_eq_true _ _).mp hsome
  simp only [Bool.and_eq_true, Bool.not_eq_true', Option.isSome_iff_exists] at hand
  obtain ⟨⟨⟨⟨⟨⟨⟨_, t⟩, hanswer⟩, howned⟩, hborrowed⟩, hfirst⟩, hsecond⟩, habsent⟩ := hand
  have hrun := Call.run_of_answer? hanswer
  obtain ⟨hsound, htrimmed⟩ := SpaceHost.twoPagesSpace_sound hv
  obtain ⟨r, t', hrun', -, -, hdone⟩ := (unassign_exact hsound htrimmed).1 1024 2 #[]
  obtain ⟨rfl, rfl⟩ := EStateM.Result.ok.inj (hrun.symm.trans hrun')
  refine ⟨v, t, hv, hsound, htrimmed, hrun, hdone rfl, howned, hborrowed, ?_⟩
  refine .notPresent (by decide) ⟨by decide, by decide, habsent, fun p hle hlt => ?_⟩
  obtain rfl | rfl : p = 1024 ∨ p = 1025 := by omega
  · exact hfirst
  · exact hsecond

end PagedKernel.Mmu
