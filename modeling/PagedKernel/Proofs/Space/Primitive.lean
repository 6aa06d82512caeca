import PagedKernel.Proofs.Address
import PagedKernel.Proofs.Operation
import PagedKernel.Proofs.Space.Transfer

/-! The steps that operations on a space are made of, as changes of its state. -/

namespace PagedKernel

namespace Machine

variable {m : Machine} {f : Frame}

theorem takeFrame_gives (m : Machine) :
    takeFrame.Gives m m.pool.alloc.1 ⟨m.ram, m.pool.alloc.2⟩ := by
  refine (Op.update_gives _).bind_gives ?_
  dsimp only
  cases m.pool.alloc.1 with
  | none => exact Op.pure_gives _
  | some f => exact (Op.record_gives (by rintro ⟨⟩)).bind_gives (Op.pure_gives _)

theorem freeFrame_gives (m : Machine) (f : Frame) :
    (freeFrame f).Gives m (m.pool.free f).1 ⟨m.ram, (m.pool.free f).2⟩ := by
  refine (Op.update_gives _).bind_gives ?_
  dsimp only
  cases (m.pool.free f).1 with
  | error e => exact Op.pure_gives _
  | ok u => exact (Op.record_gives (by rintro ⟨⟩)).bind_gives (Op.pure_gives _)

theorem changeFrame_gives (hi : m.ram.installed f) (change : FrameWords → FrameWords) :
    (changeFrame f change).Gives m () ⟨m.ram.change f change, m.pool⟩ :=
  Op.Gives.bind_gives (Op.inspect_gives (Ram.check_of_installed hi)) (Op.modify_gives _)

theorem zeroFrame_meets {gap : Prop} (hi : m.ram.installed f ∨ gap) :
    (zeroFrame f).Meets gap m fun _ m' =>
      m.ram.installed f ∧ m' = ⟨m.ram.change f fun _ => FrameWords.zero, m.pool⟩ := by
  by_cases h : m.ram.installed f
  · exact (changeFrame_gives h _).meets ⟨h, rfl⟩
  · refine Op.Meets.bind (m := fun _ _ => False) ?_ fun _ _ hf => hf.elim
    exact Op.inspect_faults (Ram.check_of_not_installed h) (hi.resolve_left h)

end Machine

namespace Mmu

variable {v : Mmu} {f table : Frame} {slot i : EntryIndex}

theorem link_val (v : Mmu) (slot : EntryIndex) :
    v.link slot.val = (PageDirectory.mk (v.machine.ram.words v.space.directory)).get slot := by
  rw [link, dif_pos slot.isLt]

theorem Framed.entry_eq (hv : v.Framed) (va : VirtualAddress) :
    v.space.entry v.machine.ram va = .ok (v.leaf va.pageNumber) := by
  have hl : ((PageDirectory.mk (v.machine.ram.words v.space.directory)).get
      va.directoryIndex).table? = v.table? (va.pageNumber / 1024) := by
    rw [table?, ← va.directoryIndex_val, link_val]
  simp only [AddressSpace.entry, Ram.directory_of_installed hv.directory_installed]
  cases ht : v.table? (va.pageNumber / 1024) with
  | none =>
    rw [ht] at hl
    rw [leaf_of_unlinked ht]
    simp only [Bind.bind, Except.bind, hl]
    rfl
  | some table =>
    rw [ht] at hl
    rw [leaf_of_table ht]
    simp only [Bind.bind, Except.bind, hl, Ram.table_of_installed (hv.table_installed ht)]
    have hi : va.tableIndex = ⟨va.pageNumber % 1024, Nat.mod_lt _ (by decide)⟩ :=
      Fin.ext va.tableIndex_val
    rw [hi]
    rfl

theorem entry_eq (hv : v.Sound) (va : VirtualAddress) :
    v.space.entry v.machine.ram va = .ok (v.leaf va.pageNumber) :=
  hv.framed.entry_eq va

theorem translate_of_present (hv : v.Sound) (va : VirtualAddress)
    (hp : (v.leaf va.pageNumber).isPresent = true) :
    ∃ pa, (v.leaf va.pageNumber).frame.join va.offset = .ok pa ∧
      pa.frame = (v.leaf va.pageNumber).frame ∧
      v.space.translate v.machine.ram va = .ok (some pa) := by
  have hj := Frame.join_of_lt (v.leaf va.pageNumber).frame va.offset_lt
  refine ⟨_, hj, Frame.frame_add _ va.offset_lt, ?_⟩
  simp only [AddressSpace.translate, entry_eq hv, TableEntry.mapping?, Bind.bind, Except.bind]
  rw [if_pos hp]
  dsimp only
  rw [hj]
  rfl

theorem translate_of_absent (hv : v.Sound) (va : VirtualAddress)
    (hp : (v.leaf va.pageNumber).isPresent = false) :
    v.space.translate v.machine.ram va = .ok none := by
  simp only [AddressSpace.translate, entry_eq hv, TableEntry.mapping?, Bind.bind, Except.bind]
  rw [if_neg (Bool.eq_false_iff.mp hp)]
  rfl

theorem translate_alike {u : Mmu} (hv : v.Sound) (hu : u.Sound) {a b : VirtualAddress}
    (ha : (v.leaf a.pageNumber).isPresent = true) (hb : (u.leaf b.pageNumber).isPresent = true)
    (hf : (v.leaf a.pageNumber).frame = (u.leaf b.pageNumber).frame) (ho : a.offset = b.offset) :
    ∃ pa, pa.frame = (u.leaf b.pageNumber).frame ∧
      v.space.translate v.machine.ram a = .ok (some pa) ∧
      u.space.translate u.machine.ram b = .ok (some pa) := by
  obtain ⟨pa, hjoin, hframe, htranslate⟩ := translate_of_present hu b hb
  obtain ⟨pa', hjoin', -, htranslate'⟩ := translate_of_present hv a ha
  rw [hf, ho] at hjoin'
  obtain rfl : pa' = pa := Except.ok.inj (hjoin'.symm.trans hjoin)
  exact ⟨pa', hframe, htranslate', htranslate⟩

theorem entry_gives (hv : v.Sound) (va : VirtualAddress) :
    (entry va).Gives v (v.leaf va.pageNumber) v :=
  Op.inspect_gives (entry_eq hv va)

theorem onMachine_gives {α : Type} {x : Op Machine α} {a : α} {m : Machine}
    (hx : x.Gives v.machine a m) : (onMachine x).Gives v a ⟨m, v.space⟩ :=
  Op.zoom_gives machinePart (s := v) (t := m) hx

theorem directoryEntry_gives (hd : v.machine.ram.installed v.space.directory) (slot : EntryIndex) :
    (directoryEntry slot).Gives v (v.link slot.val) v := by
  refine (Op.read_gives _).bind_gives (onMachine_gives (Op.inspect_gives ?_))
  show (v.machine.ram.directory v.space.directory >>= _) = _
  rw [Ram.directory_of_installed hd, link_val]
  rfl

theorem tableEntry_gives (hv : v.Sound) (ht : v.table? slot.val = some table) (i : EntryIndex) :
    (tableEntry table i).Gives v (v.leaf (1024 * slot.val + i.val)) v := by
  have hi : i.val < 1024 := i.isLt
  have hs : (1024 * slot.val + i.val) / 1024 = slot.val := by omega
  refine onMachine_gives (Op.inspect_gives ?_)
  show (v.machine.ram.table table >>= _) = _
  rw [Ram.table_of_installed (hv.table_installed ht), leaf_of_table (by rw [hs]; exact ht), cell]
  have hm : (⟨(1024 * slot.val + i.val) % 1024, Nat.mod_lt _ (by decide)⟩ : EntryIndex) = i :=
    Fin.ext (by simp only; omega)
  rw [hm]
  rfl

theorem changeFrame_gives (hi : v.machine.ram.installed f) (change : FrameWords → FrameWords) :
    (onMachine (Machine.changeFrame f change)).Gives v () (v.withFrame f change) :=
  onMachine_gives (Machine.changeFrame_gives hi change)

theorem zeroFrame_meets {gap : Prop} (hi : v.machine.ram.installed f ∨ gap) :
    (zeroFrame f).Meets gap v fun _ w =>
      v.machine.ram.installed f ∧ w = v.withFrame f fun _ => FrameWords.zero := by
  refine Op.zoom_meets machinePart (s := v) ((Machine.zeroFrame_meets hi).mono ?_)
  rintro - m ⟨h, rfl⟩
  exact ⟨h, rfl⟩

theorem setTableEntry_gives (hi : v.machine.ram.installed table) (i : EntryIndex)
    (e : TableEntry) : (setTableEntry table i e).Gives v ()
      (v.withFrame table fun words => ((PageTable.mk words).set i e).words) :=
  changeFrame_gives hi _

theorem setDirectoryEntry_gives (hd : v.machine.ram.installed v.space.directory)
    (slot : EntryIndex) (e : DirectoryEntry) :
    (setDirectoryEntry slot e).Gives v () (v.withLink slot e) :=
  (Op.read_gives _).bind_gives (changeFrame_gives hd _)

theorem takeFrame_gives (v : Mmu) :
    takeFrame.Gives v v.machine.pool.alloc.1 (v.withPool v.machine.pool.alloc.2) :=
  onMachine_gives (Machine.takeFrame_gives v.machine)

theorem freeFrame_gives (v : Mmu) (f : Frame) :
    (freeFrame f).Gives v (v.machine.pool.free f).1 (v.withPool (v.machine.pool.free f).2) :=
  onMachine_gives (Machine.freeFrame_gives v.machine f)

theorem reserveFrame_gives (v : Mmu) (f : Frame) :
    (reserveFrame f).Gives v (v.machine.pool.reserve f).1
      (v.withPool (v.machine.pool.reserve f).2) :=
  onMachine_gives (m := ⟨v.machine.ram, (v.machine.pool.reserve f).2⟩) (Op.update_gives _)

theorem presentBelow_card_le (v : Mmu) (slot : Nat) : (v.presentBelow slot).card ≤ 1024 := by
  calc
    (v.presentBelow slot).card ≤ (Finset.range 1024).card := Finset.card_filter_le _ _
    _ = 1024 := Finset.card_range 1024

def withCount (v : Mmu) (slot : EntryIndex) (count : Nat) : Mmu :=
  ⟨v.machine, ⟨v.space.directory, v.space.virtualPages,
    v.space.occupancy.set slot.val count slot.isLt⟩⟩

theorem incrementOccupancy_meets {gap : Prop} (h : v.space.occupancy.get slot < 65535 ∨ gap) :
    (incrementOccupancy slot).Meets gap v fun _ w =>
      w = v.withCount slot (v.space.occupancy.get slot + 1) := by
  refine (Op.read_gives _).bind ?_
  split
  · exact (Op.modify_gives _).meets rfl
  · next hn => exact Op.fault_meets (h.resolve_left hn)

theorem decrementOccupancy_gives {count : Nat} (h : v.space.occupancy.get slot = count + 1) :
    (decrementOccupancy slot).Gives v () (v.withCount slot count) := by
  refine (Op.read_gives _).bind_gives ?_
  rw [h]
  exact Op.modify_gives _

theorem markPage_gives (v : Mmu) (page : Page) (available : Bool) :
    (markPage page available).Gives v () (v.withPages
      (v.space.virtualPages.write page.index.val available page.index.isLt)) :=
  Op.modify_gives _

end Mmu
end PagedKernel
