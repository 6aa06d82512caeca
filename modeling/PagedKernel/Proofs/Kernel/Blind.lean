import PagedKernel.Kernel.Calls
import PagedKernel.Proofs.Io.SideBySide
import PagedKernel.Proofs.Space.Blind

/-! The log and the kernel. What a call of a process comes to does not depend on what was
reported before it. -/

namespace PagedKernel

theorem Mmu.aliasMapper_blind (source? : Option AddressSpace) : (aliasMapper source?).Blind where
  lend := lend_blind source?
  takeBack := takeBack_blind

namespace ReadQueue

variable {δ μ : Type} {mapper : AliasMapper μ}

theorem beside_eq_iff (s s' : ReadQueue × IoWorld δ μ) :
    Beside Eq (fun _ => True) s s' ↔ s = s' := by
  constructor
  · rintro ⟨hqueue, -, hdevice, hmapper, hslots⟩
    obtain ⟨q, device, m, slots⟩ := s
    obtain ⟨q', device', m', slots'⟩ := s'
    dsimp only at hqueue hdevice hmapper hslots
    rw [hqueue, hdevice, hmapper, hslots]
  · rintro rfl
    exact ⟨rfl, fun _ _ => trivial, rfl, rfl, rfl⟩

theorem cancelProcess_blind (hm : mapper.Blind) (pid : ProcessId) :
    (cancelProcess (δ := δ) mapper pid).Blind :=
  (cancelWhere_agrees hm trivial trivial _).congr beside_eq_iff

theorem submit_blind (pid : ProcessId) (r : Read) : (submit pid r).Blind :=
  (Op.record_blind _).bind fun _ => Op.modify_blind _

end ReadQueue

theorem Read.prepare_blind {μ : Type} {mapper : AliasMapper μ} (hm : mapper.Blind) (fd : Fd)
    (user : VirtualAddress) (count : Nat) (slot : SlotId) :
    (prepare mapper fd user count slot).Blind :=
  (prepare_agrees hm fd user count slot).mono fun _ _ _ _ => trivial

namespace Kernel

theorem requireProcess_blind (pid : ProcessId) : (requireProcess pid).Blind := by
  refine Call.get_bind_blind (fun t => ?_) fun _ _ _ => rfl
  cases t.state.process? pid with
  | none => exact Call.throw_blind _
  | some p => exact Call.pure_blind p

theorem map_blind (pid : ProcessId) (hint : VirtualAddress) (length : Nat) (writable : Bool) :
    (map pid hint length writable).Blind := by
  refine (requireProcess_blind pid).bind fun p => ?_
  exact (((Mmu.map_blind _ _ _ _).zoom _).report _).adapt _

theorem unmap_blind (pid : ProcessId) (va : VirtualAddress) (length : Nat) :
    (unmap pid va length).Blind := by
  refine (requireProcess_blind pid).bind fun p => ?_
  refine Call.get_bind_blind (fun t => ?_) fun _ _ _ => rfl
  dsimp only
  split
  · exact (Call.record_blind _).bind fun _ => Call.throw_bind_blind _ _
  · exact (((Mmu.unmap_blind va length).zoom _).report _).adapt _

theorem read_blind (pid : ProcessId) (fd : Fd) (buffer : VirtualAddress) (count : Nat) :
    (read pid fd buffer count).Blind := by
  refine (requireProcess_blind pid).bind fun p => ?_
  refine Call.get_bind_blind (fun t => ?_) fun _ _ _ => rfl
  have hm := Mmu.aliasMapper_blind (some p.space)
  refine ((((Read.prepare_blind hm fd buffer count _).zoom _).report _).adapt _).bind fun r => ?_
  refine (Call.lift_blind (Op.update_blind _)).bind fun slot => ?_
  refine (Call.zoomOp_blind _ (ReadQueue.submit_blind pid r)).bind fun _ => ?_
  exact (Call.lift_blind (Op.modify_blind _)).bind fun _ => Call.pure_blind _

theorem exit_blind (pid : ProcessId) : (exit pid).Blind := by
  refine (requireProcess_blind pid).bind fun p => ?_
  refine (Call.lift_blind (Op.modify_blind _)).bind fun _ => ?_
  have hm := Mmu.aliasMapper_blind none
  refine (Call.zoomOp_blind _ (ReadQueue.cancelProcess_blind hm pid)).bind fun cancelled => ?_
  refine (Call.zoomOp_blind _ p.space.release_blind).bind fun _ => ?_
  exact Call.get_bind_blind (fun t => Call.record_blind _) fun _ _ _ => rfl

end Kernel

end PagedKernel
