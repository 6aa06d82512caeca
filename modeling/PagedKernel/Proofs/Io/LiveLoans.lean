import Mathlib.Data.Multiset.AddSub
import PagedKernel.Bench.LedgerMapper
import PagedKernel.Proofs.Io.ReadHost

/-! What is lent while a queue is in use. Whoever keeps the books of a mapper that takes back
what is live finds there the loans of the reads at work, and no others. -/

namespace PagedKernel

variable {δ μ : Type}

/-- The books of a mapper: `live` is what is lent. A loan is entered when it is lent, and
struck out when it is taken back, which the mapper does with a live loan. -/
structure AliasMapper.Books (mapper : AliasMapper μ) (sound : μ → Prop)
    (live : μ → Multiset Loan) : Prop where
  lend : ∀ user span m, sound m → (mapper.lend user span).run.Leads True m fun answer m' =>
    sound m' ∧ live m' = match answer with
      | .ok base => ⟨base, span⟩ ::ₘ live m
      | .error _ => live m
  takeBack : ∀ loan m, sound m → loan ∈ live m →
    (mapper.takeBack loan.base loan.span).run.Leads True m fun answer m' =>
      answer = .ok () ∧ sound m' ∧ live m' = (live m).erase loan

namespace AliasMapper.Books

variable {mapper : AliasMapper μ} {sound : μ → Prop} {live : μ → Multiset Loan} {m m' : μ}

theorem lends (hb : mapper.Books sound live) {loan : Option Loan} (h : mapper.Lends loan m m')
    (hm : sound m) : sound m' ∧ live m' = ↑loan.toList + live m := by
  cases h with
  | nothing => exact ⟨hm, (Multiset.zero_add _).symm⟩
  | refused hrun =>
    obtain ⟨hm', hlive⟩ := (hb.lend _ _ m hm).post hrun
    exact ⟨hm', hlive.trans (Multiset.zero_add _).symm⟩
  | lent hrun => exact (hb.lend _ _ m hm).post hrun

theorem takesBack (hb : mapper.Books sound live) {loans rest : List Loan}
    (h : mapper.TakesBack loans m m') (hm : sound m) (hlive : live m = ↑(loans ++ rest)) :
    sound m' ∧ live m' = ↑rest := by
  induction h with
  | nil m => exact ⟨hm, hlive⟩
  | @cons loan loans m m' events answer t hrun _ ih =>
    rw [List.cons_append, ← Multiset.cons_coe] at hlive
    obtain ⟨-, hm', hstruck⟩ := (hb.takeBack loan m hm
      (hlive ▸ Multiset.mem_cons_self _ _)).post hrun
    rw [hlive, Multiset.erase_cons_head] at hstruck
    exact ih hm' hstruck

end AliasMapper.Books

namespace LedgerMapper

def loanOf (entry : VirtualAddress × Nat) : Loan :=
  ⟨entry.1, entry.2⟩

def loans (s : State) : Multiset Loan :=
  ↑(s.live.map loanOf)

theorem loanOf_injective : Function.Injective loanOf := by
  rintro ⟨base, span⟩ ⟨base', span'⟩ h
  cases h
  rfl

theorem books : mapper.Books (·.keepsAll = false) loans where
  lend user span s hs := by
    obtain ⟨base, entries, refusal, keepsAll, calls⟩ := s
    obtain rfl : keepsAll = false := hs
    refine (Op.update_gives (lend user span)).leads ?_
    unfold lend
    cases refusal with
    | some refusal => exact ⟨rfl, rfl⟩
    | none =>
      refine ⟨rfl, ?_⟩
      dsimp only [loans]
      rw [List.map_append, Multiset.cons_coe, Multiset.coe_eq_coe]
      exact List.perm_append_comm
  takeBack loan s hs hlive := by
    obtain ⟨⟨base, span⟩, hmem, rfl⟩ := List.mem_map.mp (Multiset.mem_coe.mp hlive)
    have hgiven : (!s.keepsAll && s.live.contains (base, span)) = true := by
      rw [hs, List.contains_iff_mem.mpr hmem]
      rfl
    have hstruck : (s.live.erase (base, span)).map loanOf =
        (s.live.map loanOf).erase (loanOf (base, span)) := List.map_erase loanOf_injective _
    refine (Op.update_gives (takeBack base span)).leads ?_
    unfold takeBack
    dsimp only [loanOf]
    rw [if_pos hgiven]
    refine ⟨rfl, hs, ?_⟩
    rw [loans, loans, Multiset.coe_erase, Multiset.coe_eq_coe]
    exact .of_eq hstruck

theorem answers : mapper.Answers :=
  fun kernel length _ => (Op.update_gives (takeBack kernel length)).leads trivial

end LedgerMapper

namespace Read

theorem loan_make (move : Move) (r : Read) (slots : Slots) :
    r.loan.toList = r.returned (move.make r slots).1 ++ (move.make r slots).1.loan.toList := by
  cases move with
  | wait state => cases h : r.loan <;> simp [returned, Move.make, h]
  | finish result => simp [returned, Move.make]

def loansOf (rs : List Read) : List Loan :=
  rs.flatMap (·.loan.toList)

theorem loansOf_append (rs later : List Read) :
    loansOf (rs ++ later) = loansOf rs ++ loansOf later :=
  List.flatMap_append

end Read

namespace ReadQueue.Visits

variable {es : List QueueEntry} {slots slots' : Slots} {visits : List Visit}

theorem loans (h : Visits es slots visits slots') : ∀ v ∈ visits,
    v.before.read.loan.toList = v.returned ++ v.after.read.loan.toList := by
  induction h with
  | done => exact List.forall_mem_nil _
  | skip e _ ih =>
    refine List.forall_mem_cons.mpr ⟨?_, ih⟩
    exact Read.loan_make (.wait e.read.state) e.read .empty
  | make e _ _ ih => exact List.forall_mem_cons.mpr ⟨Read.loan_make _ _ _, ih⟩

theorem loans_divided (hloans : ∀ v ∈ visits,
      v.before.read.loan.toList = v.returned ++ v.after.read.loan.toList)
    (hs : ∀ v ∈ visits, v.Sound slots) :
    (Read.loansOf (visits.map (·.before.read))).Perm
      (visits.flatMap Visit.returned ++
        Read.loansOf ((visits.filterMap Visit.kept?).map (·.read))) := by
  induction visits with
  | nil => exact .nil
  | cons v visits ih =>
    obtain ⟨hv, hloans⟩ := List.forall_mem_cons.mp hloans
    obtain ⟨hsv, hs⟩ := List.forall_mem_cons.mp hs
    have hrest := ih hloans hs
    rw [List.map_cons, Read.loansOf, List.flatMap_cons, hv, List.flatMap_cons]
    cases hr : v.result? with
    | none =>
      have hkept : v.kept? = some v.after := by
        rw [Visit.kept?, hr]
        rfl
      rw [List.filterMap_cons_some hkept, List.map_cons, Read.loansOf, List.flatMap_cons,
        List.append_assoc, List.append_assoc]
      exact ((hrest.append_left _).trans (List.perm_append_comm_assoc _ _ _)).append_left _
    | some result =>
      have hkept : v.kept? = none := by
        rw [Visit.kept?, hr]
        rfl
      rw [List.filterMap_cons_none hkept, (hsv.left result hr).2, Option.toList_none,
        List.append_nil, List.append_assoc]
      exact hrest.append_left _

end ReadQueue.Visits

namespace ReadHost

variable {backend : Backend δ μ} {m₀ : μ} {h h' : ReadHost δ μ} {j j' : Journal}
  {sound : μ → Prop} {live : μ → Multiset Loan}

/-- Live are the loans of the reads at work. -/
structure Borrows (sound : μ → Prop) (live : μ → Multiset Loan) (h : ReadHost δ μ) : Prop where
  sound : sound h.world.mapper
  live : live h.world.mapper = ↑(Read.loansOf h.reads)

namespace Borrows

theorem takesBack (hb : backend.mapper.Books sound live) (hl : Borrows sound live h)
    {loans : List Loan} (hback : backend.mapper.TakesBack loans h.world.mapper h'.world.mapper)
    (hperm : (Read.loansOf h.reads).Perm (loans ++ Read.loansOf h'.reads)) :
    Borrows sound live h' := by
  obtain ⟨hm, hlive⟩ := hb.takesBack hback hl.sound
    (hl.live.trans (Multiset.coe_eq_coe.mpr hperm))
  exact ⟨hm, hlive⟩

theorem visited (hb : backend.mapper.Books sound live) (hi : Inv j.made j.submitted h)
    (hl : Borrows sound live h) {visits : List ReadQueue.Visit} {slots' : Slots}
    {ended : List Completion} {t : ReadQueue × ObservedWorld δ μ}
    (hvisits : ReadQueue.Visits h.queue.entries h.world.slots visits slots')
    (hvisited : ReadQueue.Visited backend.mapper visits (.empty, h.world) ended t) :
    Borrows sound live ⟨t.1, h.hand, t.2⟩ := by
  refine hl.takesBack hb hvisited.mapper ?_
  have hdivided := ReadQueue.Visits.loans_divided hvisits.loans (hi.sound hvisits)
  have hentries : t.1.entries = visits.filterMap ReadQueue.Visit.kept? := hvisited.entries
  have hbefore : visits.map (·.before.read) = h.queue.entries.map (·.read) := by
    rw [← hvisits.before_eq, List.map_map]
    rfl
  rw [reads, reads, Read.loansOf_append, Read.loansOf_append, hentries, ← List.append_assoc,
    ← hbefore]
  exact hdivided.append_right _

theorem change (hb : backend.mapper.Books sound live) (hi : Inv j.made j.submitted h)
    (hl : Borrows sound live h) (hc : Change backend h j h' j') : Borrows sound live h' := by
  cases hc with
  | @prepared r? m hlends hnew =>
    obtain ⟨hm, hlive⟩ := hb.lends hlends hl.sound
    refine ⟨hm, hlive.trans ?_⟩
    have hloan : Read.loansOf r?.toList = (r?.bind Read.loan).toList := by
      cases r? with
      | none => rfl
      | some r => exact List.append_nil _
    rw [hl.live, Multiset.coe_add, Multiset.coe_eq_coe, reads, reads, ← List.append_assoc,
      Read.loansOf_append _ r?.toList, hloan]
    exact List.perm_append_comm
  | @called before after r t call hhand hmoved =>
    obtain ⟨q, hand, world⟩ := h
    obtain rfl : hand = before ++ r :: after := hhand
    refine hl.takesBack hb hmoved.mapper ?_
    have hread : t.1 = ((call.move backend.observed r world.device).1.make r world.slots).1 :=
      congrArg Prod.fst hmoved.made
    have hloan : r.loan.toList = r.returned t.1 ++ t.1.loan.toList := by
      rw [hread]
      exact Read.loan_make _ _ _
    have hbefore := (reads_perm q before after r world).flatMap_right (·.loan.toList)
    have hafter := (reads_perm q before after t.1 t.2).flatMap_right (·.loan.toList)
    rw [List.flatMap_cons, hloan, List.append_assoc] at hbefore
    exact hbefore.trans (hafter.symm.append_left _)
  | @submitted before after r pid hhand =>
    obtain ⟨q, hand, world⟩ := h
    obtain rfl : hand = before ++ r :: after := hhand
    refine hl.takesBack hb (.nil _) ?_
    exact ((reads_submit q before after r pid world).flatMap_right (·.loan.toList)).symm
  | polled hvisited _ =>
    exact hl.visited hb hi (ReadQueue.pollPass_visits _ _ _ _ (_, _)) hvisited
  | cancelled selected hvisited _ _ =>
    exact hl.visited hb hi (ReadQueue.cancelPass_visits _ _ _) hvisited
  | drifted d => exact ⟨hl.sound, hl.live⟩

end Borrows

theorem Runs.borrows (hb : backend.mapper.Books sound live) (hsound : sound m₀)
    (hlive : live m₀ = 0) (hruns : Runs backend m₀ h j) : Borrows sound live h := by
  refine (hruns.invariant (P := fun h j => Inv j.made j.submitted h ∧ Borrows sound live h)
    (fun d => ⟨.initial d m₀, hsound, hlive⟩) ?_).2
  rintro h j h' j' hc ⟨hi, hl⟩
  exact ⟨hi.change hc, hl.change hb hi hc⟩

end ReadHost
end PagedKernel
