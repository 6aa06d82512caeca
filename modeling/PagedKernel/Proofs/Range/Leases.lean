import PagedKernel.Proofs.Host.Invariant
import PagedKernel.Proofs.Range.Lending

/-! Ranges that are mapped or lent and later unmapped, in any order. Ranges out on lease lie
apart, on pages that were on offer at the beginning, and the rest of the space is as it was
then. So a range can always be given up, and when the last one is, no trace of any is left. -/

namespace PagedKernel.Mmu

variable {v w x : Mmu}

structure Lease where
  address : VirtualAddress
  length : Nat
  deriving DecidableEq

namespace Lease

def pages (lease : Lease) : Nat :=
  pagesTouched lease.address.toMemoryAddress lease.length

def Covers (lease : Lease) (p : Nat) : Prop :=
  lease.address.pageNumber ≤ p ∧ p < lease.address.pageNumber + lease.pages

theorem pages_eq {lease : Lease} (hin : ∀ p, lease.Covers p → p < pageCount) :
    lease.length + lease.address.offset.toNat ≤ maxLength ∧
      lease.pages = pagesSpanning (lease.length + lease.address.offset.toNat) := by
  refine pagesTouched_of_le (Nat.le_of_not_lt fun hlt => ?_)
  have hbig : pageCount < lease.pages := hlt
  have hlast := hin (lease.address.pageNumber + lease.pages - 1) ⟨by omega, by omega⟩
  omega

theorem pages_of_mapped {writable user : Bool} {hint base : VirtualAddress} {length : Nat}
    (h : Mapped writable user v w hint base length) :
    (Lease.mk base length).pages = pagesSpanning length := by
  have hfits := pagesSpanning_le_iff.mp (Nat.le_trans (Nat.le_add_left _ _) h.fits)
  refine pagesTouched_of_aligned h.aligned (Nat.le_trans hfits ?_)
  decide

theorem pages_of_lent {frames : List Frame} {user kernel : VirtualAddress} {length : Nat}
    (h : LentFrames frames v w user kernel)
    (hlen : frames.length = pagesTouched user.toMemoryAddress length) :
    (Lease.mk kernel length).pages = frames.length := by
  rw [hlen]
  exact congrArg (fun offset : UInt32 => pagesSpanning (saturatingAdd length offset.toNat)) h.offset

end Lease

/-- The states reached from `v` by mapping and lending ranges and giving them up again, with
the ranges that are still out. A range is given up by its address and length, and out until
that is answered. -/
inductive Leased (v : Mmu) : Mmu → List Lease → Prop where
  | start : Leased v v []
  | map {w : Mmu} {live : List Lease} {hint base : VirtualAddress} {length : Nat}
    {writable user : Bool} {events : Array Event} {t : Traced Mmu} (h : Leased v w live)
    (hrun : (Mmu.map hint length writable user).run ⟨w, events⟩ = .ok (.ok base) t) :
    Leased v t.state (⟨base, length⟩ :: live)
  | lend {w : Mmu} {live : List Lease} {source? : Option AddressSpace}
    {user kernel : VirtualAddress} {length : Nat} {events : Array Event} {t : Traced Mmu}
    (h : Leased v w live)
    (hrun : (Mmu.lend source? user length).run ⟨w, events⟩ = .ok (.ok kernel) t) :
    Leased v t.state (⟨kernel, length⟩ :: live)
  | unmap {w : Mmu} {live : List Lease} {lease : Lease} {events : Array Event}
    {r : Except MappingError Unit} {t : Traced Mmu} (h : Leased v w live) (hl : lease ∈ live)
    (hrun : (Mmu.unmap lease.address lease.length).run ⟨w, events⟩ = .ok r t) :
    Leased v t.state (if r.isOk then live.erase lease else live)
  | takeBack {w : Mmu} {live : List Lease} {lease : Lease} {events : Array Event}
    {r : Except AliasError Unit} {t : Traced Mmu} (h : Leased v w live) (hl : lease ∈ live)
    (hrun : (Mmu.takeBack lease.address lease.length).run ⟨w, events⟩ = .ok r t) :
    Leased v t.state (if r.isOk then live.erase lease else live)

def Covered (live : List Lease) (p : Nat) : Prop :=
  ∃ lease ∈ live, lease.Covers p

theorem covered_cons_iff {lease : Lease} {live : List Lease} {p : Nat} :
    Covered (lease :: live) p ↔ lease.Covers p ∨ Covered live p := by
  simp only [Covered, List.mem_cons, exists_eq_or_imp]

/-- A space is as it was, but for the ranges that are out. -/
structure Overlaid (v w : Mmu) (live : List Lease) : Prop where
  sound : w.Sound
  trimmed : w.Trimmed
  step : Step none v w
  apart : live.Pairwise fun a b => ∀ p, a.Covers p → ¬ b.Covers p
  filled : ∀ lease ∈ live, lease.pages ≠ 0
  mapped : ∀ p, Covered live p →
    v.space.isAvailable p = true ∧ (w.leaf p).isPresent = true
  leaf : ∀ p, ¬ Covered live p → w.leaf p = v.leaf p
  tables : ∀ s t, v.table? s = some t → w.table? s = some t
  offered : ∀ p, w.space.isAvailable p = true ↔
    v.space.isAvailable p = true ∧ ¬ Covered live p

namespace Overlaid

variable {live : List Lease} {lease : Lease}

theorem refl (hv : v.Sound) (ht : v.Trimmed) : Overlaid v v [] where
  sound := hv
  trimmed := ht
  step := .refl v
  apart := .nil
  filled := nofun
  mapped := nofun
  leaf _ _ := rfl
  tables _ _ := id
  offered _ := (and_iff_left nofun).symm

theorem perm {live' : List Lease} (h : Overlaid v w live) (hp : live.Perm live') :
    Overlaid v w live' := by
  have hcovered : Covered live' = Covered live := by
    funext p
    simp only [Covered, hp.mem_iff]
  obtain ⟨hsound, htrimmed, hstep, hapart, hfilled, hmapped, hleaf, htables, hoffered⟩ := h
  rw [← hcovered] at hmapped hleaf hoffered
  refine ⟨hsound, htrimmed, hstep, ?_, ?_, hmapped, hleaf, htables, hoffered⟩
  · exact (hp.pairwise_iff fun hab p hb ha => hab p ha hb).mp hapart
  · exact fun l hl => hfilled l (hp.mem_iff.mpr hl)

theorem grow {user : Bool} {new : Nat → TableEntry → Prop} (h : Overlaid v w live)
    (hn : lease.pages ≠ 0) (hg : Grown user new w x lease.address.pageNumber lease.pages) :
    Overlaid v x (lease :: live) := by
  have hfree : ∀ p, lease.Covers p → v.space.isAvailable p = true ∧ ¬ Covered live p :=
    fun p hp => (h.offered p).mp (hg.before p hp.1 hp.2)
  refine ⟨hg.sound, hg.trimmed h.trimmed, h.step.trans hg.step, ?_, ?_, ?_, ?_, ?_, ?_⟩
  · exact .cons (fun l hl p hp hp' => (hfree p hp).2 ⟨l, hl, hp'⟩) h.apart
  · exact List.forall_mem_cons.mpr ⟨hn, h.filled⟩
  · intro p hp
    rcases covered_cons_iff.mp hp with hin | hlive
    · exact ⟨(hfree p hin).1, (hg.mapped p hin.1 hin.2).2⟩
    · rw [hg.leaf p fun hin => (hfree p hin).2 hlive]
      exact h.mapped p hlive
  · intro p hp
    rw [covered_cons_iff, not_or] at hp
    rw [hg.leaf p hp.1, h.leaf p hp.2]
  · exact fun s t hs => hg.tables s t (h.tables s t hs)
  · intro p
    rw [hg.offered, covered_cons_iff, not_or]
    split
    · next hin => exact iff_of_false nofun fun hp => hp.2.1 hin
    · next hout => exact (h.offered p).trans (and_congr_right fun _ => (and_iff_right hout).symm)

theorem shrink (hv : v.Sound) (ht : v.Trimmed) (h : Overlaid v w (lease :: live))
    (hu : Unassigned w x lease.address.pageNumber lease.pages) : Overlaid v x live := by
  obtain ⟨hapart, hrest⟩ := List.pairwise_cons.mp h.apart
  have hother : ∀ p, Covered live p → ¬ lease.Covers p :=
    fun p ⟨l, hl, hp⟩ hin => hapart l hl p hin hp
  have hleaf : ∀ p, ¬ Covered live p → x.leaf p = v.leaf p := by
    intro p hp
    rw [hu.leaf]
    split
    · next hin =>
      have hoffer := (h.mapped p (covered_cons_iff.mpr (.inl hin))).1
      exact (hv.absent (hv.offered hoffer)).symm
    · next hout => exact h.leaf p fun hc => (covered_cons_iff.mp hc).elim hout hp
  refine ⟨hu.sound, hu.trimmed h.trimmed, h.step.trans hu.step, hrest,
    fun l hl => h.filled l (List.mem_cons_of_mem _ hl), ?_, hleaf, ?_, ?_⟩
  · intro p hp
    obtain ⟨hoffer, hpresent⟩ := h.mapped p (covered_cons_iff.mpr (.inr hp))
    have hout : ¬ (lease.address.pageNumber ≤ p ∧ p < lease.address.pageNumber + lease.pages) :=
      hother p hp
    rw [hu.leaf, if_neg hout]
    exact ⟨hoffer, hpresent⟩
  · intro s t hs
    have hold : ∀ p, (v.leaf p).isPresent = true → (x.leaf p).isPresent = true := by
      intro p hp
      rw [hleaf p fun hc => ?_]
      · exact hp
      · have hoffer := (h.mapped p (covered_cons_iff.mpr (.inr hc))).1
        rw [hv.offered hoffer] at hp
        cases hp
    obtain ⟨u, hxu⟩ := ht.exists_table? hold hs
    rw [hxu, ← hu.tables s u hxu, h.tables s t hs]
  · intro p
    rw [hu.offered]
    split
    · next hin =>
      have hoffer := (h.mapped p (covered_cons_iff.mpr (.inl hin))).1
      exact iff_of_true rfl ⟨hoffer, fun hc => hother p hc hin⟩
    · next hout =>
      rw [h.offered, covered_cons_iff, not_or]
      exact and_congr_right fun _ => and_iff_right hout

theorem present (h : Overlaid v w live) (hl : lease ∈ live) {p : Nat} (hp : lease.Covers p) :
    (w.leaf p).isPresent = true :=
  (h.mapped p ⟨lease, hl, hp⟩).2

theorem takeBack_meets (h : Overlaid v w live) (hl : lease ∈ live) :
    (takeBack lease.address lease.length).Meets False w
      (fun _ x => Unassigned w x lease.address.pageNumber lease.pages) fun _ _ => False :=
  Mmu.takeBack_meets h.sound _ _ (h.filled lease hl) fun _ hle hlt => h.present hl ⟨hle, hlt⟩

theorem unmap_meets (h : Overlaid v w live) (hl : lease ∈ live) :
    (unmap lease.address lease.length).Meets False w
      (fun _ x => Unassigned w x lease.address.pageNumber lease.pages)
      fun _ x => lease.length = 0 ∧ x = w := by
  by_cases h0 : lease.length = 0
  · unfold unmap
    rw [if_pos h0]
    exact Call.throw_bind_meets ⟨h0, rfl⟩
  · obtain ⟨hmax, hpages⟩ := Lease.pages_eq fun p hp => lt_of_present (h.present hl hp)
    rw [unmap_eq _ h0 hmax, ← hpages]
    refine Call.Meets.bind (Call.adapt_meets (unassign_present h.sound (h.filled lease hl)
      (fun _ hle hlt => h.present hl ⟨hle, hlt⟩) |>.mono (fun _ _ => id) fun _ _ => False.elim)) ?_
    exact fun _ x hx => Call.record_meets (by rintro ⟨⟩) hx

theorem noTrace (hv : v.Sound) (ht : v.Trimmed) (h : Overlaid v w []) : NoTrace v w := by
  have hleaf : w.leaf = v.leaf := funext fun p => h.leaf p nofun
  refine h.step.noTrace hv h.sound hleaf ?_ ?_
  · refine tables_eq_of_leaf ht h.trimmed hleaf fun s t u hs hu => ?_
    exact Option.some.inj ((h.tables s t hs).symm.trans hu)
  · funext p
    rw [Bool.eq_iff_iff, h.offered, and_iff_left]
    nofun

end Overlaid

theorem Leased.overlaid (hv : v.Sound) (ht : v.Trimmed) {live : List Lease}
    (h : Leased v w live) : Overlaid v w live := by
  induction h with
  | start => exact .refl hv ht
  | @map w live hint base length writable user events t _ hrun ih =>
    have hmapped := (Op.Meets.post (map_meets ih.sound ih.trimmed (fun _ _ => .inr trivial) hint
      length) hrun).1
    have hpages := Lease.pages_of_mapped hmapped
    have hsome : (Lease.mk base length).pages ≠ 0 := by
      rw [hpages, ne_eq, pagesSpanning_eq_zero_iff]
      exact hmapped.some
    exact ih.grow hsome (hpages ▸ hmapped.grown)
  | @lend w live source? user kernel length events t _ hrun ih =>
    obtain ⟨frames, hlen, hlent⟩ :=
      (Op.Meets.post (lend_any_meets ih.sound ih.trimmed source? user length) hrun).1
    have hpages := Lease.pages_of_lent hlent hlen
    have hsome : (Lease.mk kernel length).pages ≠ 0 := hpages ▸ hlent.some
    exact ih.grow hsome (hpages ▸ hlent.grown)
  | @unmap w live lease events r t _ hl hrun ih =>
    have hpost := (Op.Meets.post (ih.unmap_meets hl) hrun).1
    cases r with
    | ok u => exact (ih.perm (List.perm_cons_erase hl)).shrink hv ht hpost
    | error e => exact hpost.2 ▸ ih
  | @takeBack w live lease events r t _ hl hrun ih =>
    have hpost := (Op.Meets.post (ih.takeBack_meets hl) hrun).1
    cases r with
    | ok u => exact (ih.perm (List.perm_cons_erase hl)).shrink hv ht hpost
    | error e => exact hpost.elim

/-- Ranges that were all given up leave no trace, and a range that is out can be given up:
always as one that was lent, and if its length is not zero also as one that was mapped. -/
theorem leases_leave_no_trace (hv : v.Sound) (ht : v.Trimmed) :
    (∀ w, Leased v w [] → NoTrace v w) ∧
    ∀ w live, Leased v w live → ∀ lease ∈ live, ∀ events,
      (∃ t, (takeBack lease.address lease.length).run ⟨w, events⟩ = .ok (.ok ()) t) ∧
      (lease.length ≠ 0 →
        ∃ t, (unmap lease.address lease.length).run ⟨w, events⟩ = .ok (.ok ()) t) := by
  refine ⟨fun w h => (h.overlaid hv ht).noTrace hv ht, fun w live h lease hl events => ⟨?_, ?_⟩⟩
  · obtain ⟨r, t, hrun, hpost⟩ := ((h.overlaid hv ht).takeBack_meets hl).exists_answer events
    cases r with
    | ok u => exact ⟨t, hrun⟩
    | error e => exact hpost.elim
  · intro h0
    obtain ⟨r, t, hrun, hpost⟩ := ((h.overlaid hv ht).unmap_meets hl).exists_answer events
    cases r with
    | ok u => exact ⟨t, hrun⟩
    | error e => exact absurd hpost.1 h0

theorem leases_leave_no_trace_crossed : ∃ v base kernel t₁ t₂ t₃ t₄,
    SpaceHost.twoPagesSpace = some v ∧ v.Sound ∧ v.Trimmed ∧
    (map (.ofBits 8384512) 5000 true true).run ⟨v, #[]⟩ = .ok (.ok base) t₁ ∧
    (lend (some v.space) (.ofBits 4194320) 5000).run ⟨t₁.state, #[]⟩ = .ok (.ok kernel) t₂ ∧
    (unmap base 5000).run ⟨t₂.state, #[]⟩ = .ok (.ok ()) t₃ ∧
    (takeBack kernel 5000).run ⟨t₃.state, #[]⟩ = .ok (.ok ()) t₄ ∧ NoTrace v t₄.state := by
  have hsome : (SpaceHost.twoPagesSpace.any fun v =>
      ((map (.ofBits 8384512) 5000 true true).answer? v).any fun (base, t) =>
        ((lend (some v.space) (.ofBits 4194320) 5000).answer? t.state).any (·.1 ≠ base)) = true := by
    decide +kernel
  obtain ⟨v, hv, hany⟩ := (Option.any_eq_true _ _).mp hsome
  obtain ⟨⟨base, t₁⟩, hmapped, hany⟩ := (Option.any_eq_true _ _).mp hany
  obtain ⟨⟨kernel, t₂⟩, hlent, hne⟩ := (Option.any_eq_true _ _).mp hany
  have hrun₁ := Call.run_of_answer? hmapped
  have hrun₂ := Call.run_of_answer? hlent
  obtain ⟨hsound, htrimmed⟩ := SpaceHost.twoPagesSpace_sound hv
  obtain ⟨hnoTrace, hout⟩ := leases_leave_no_trace hsound htrimmed
  have hboth := (Leased.start.map hrun₁).lend hrun₂
  have hlive : Lease.mk base 5000 ∈ [Lease.mk kernel 5000, Lease.mk base 5000] :=
    .tail _ (.head _)
  obtain ⟨t₃, hrun₃⟩ := (hout _ _ hboth _ hlive #[]).2 (show 5000 ≠ 0 by decide)
  have hone : Leased v t₃.state ([Lease.mk kernel 5000, Lease.mk base 5000].erase ⟨base, 5000⟩) :=
    hboth.unmap hlive hrun₃
  have hapart : Lease.mk kernel 5000 ≠ ⟨base, 5000⟩ :=
    fun he => of_decide_eq_true hne (congrArg Lease.address he)
  rw [List.erase_cons_tail (by rwa [beq_iff_eq]), List.erase_cons_head] at hone
  obtain ⟨t₄, hrun₄⟩ := (hout _ _ hone _ (.head _) #[]).1
  have hnone : Leased v t₄.state ([Lease.mk kernel 5000].erase ⟨kernel, 5000⟩) :=
    hone.takeBack (.head _) hrun₄
  rw [List.erase_cons_head] at hnone
  exact ⟨v, base, kernel, t₁, t₂, t₃, t₄, hv, hsound, htrimmed, hrun₁, hrun₂, hrun₃, hrun₄,
    hnoTrace _ hnone⟩

end PagedKernel.Mmu
