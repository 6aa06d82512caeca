import PagedKernel.Proofs.Agreement
import PagedKernel.Range.Mapper
import PagedKernel.Space.Lifetime

/-! The log and memory. No operation on a machine or an address space takes notice of what was
reported before: the events are told, and never asked. -/

namespace PagedKernel

namespace Machine

theorem takeFrame_blind : takeFrame.Blind := by
  refine (Op.update_blind _).bind fun taken => ?_
  cases taken with
  | none => exact Op.pure_blind _
  | some f => exact (Op.record_blind _).bind fun _ => Op.pure_blind _

theorem freeFrame_blind (f : Frame) : (freeFrame f).Blind := by
  refine (Op.update_blind _).bind fun freed => ?_
  cases freed with
  | ok _ => exact (Op.record_blind _).bind fun _ => Op.pure_blind _
  | error cause => exact Op.pure_blind _

theorem reserveFrame_blind (f : Frame) : (reserveFrame f).Blind :=
  Op.update_blind _

theorem changeFrame_blind (f : Frame) (g : FrameWords → FrameWords) : (changeFrame f g).Blind :=
  (Op.inspect_blind _).bind fun _ => Op.modify_blind _

end Machine

namespace Mmu

theorem takeFrame_blind : takeFrame.Blind :=
  Machine.takeFrame_blind.zoom machinePart

theorem freeFrame_blind (f : Frame) : (freeFrame f).Blind :=
  (Machine.freeFrame_blind f).zoom machinePart

theorem reserveFrame_blind (f : Frame) : (reserveFrame f).Blind :=
  (Machine.reserveFrame_blind f).zoom machinePart

theorem zeroFrame_blind (f : Frame) : (zeroFrame f).Blind :=
  (Machine.changeFrame_blind f _).zoom machinePart

theorem tableEntry_blind (table : Frame) (i : EntryIndex) : (tableEntry table i).Blind :=
  (Op.inspect_blind _).zoom machinePart

theorem setTableEntry_blind (table : Frame) (i : EntryIndex) (e : TableEntry) :
    (setTableEntry table i e).Blind :=
  (Machine.changeFrame_blind table _).zoom machinePart

theorem directoryEntry_blind (i : EntryIndex) : (directoryEntry i).Blind :=
  (Op.read_blind _).bind fun _ => (Op.inspect_blind _).zoom machinePart

theorem setDirectoryEntry_blind (i : EntryIndex) (e : DirectoryEntry) :
    (setDirectoryEntry i e).Blind :=
  (Op.read_blind _).bind fun _ => (Machine.changeFrame_blind _ _).zoom machinePart

theorem incrementOccupancy_blind (i : EntryIndex) : (incrementOccupancy i).Blind := by
  refine (Op.read_blind _).bind fun n => ?_
  split
  · exact Op.modify_blind _
  · exact Op.fault_blind _

theorem decrementOccupancy_blind (i : EntryIndex) : (decrementOccupancy i).Blind := by
  refine (Op.read_blind _).bind fun n => ?_
  cases n with
  | zero => exact Op.fault_blind _
  | succ n => exact Op.modify_blind _

theorem markPage_blind (page : Page) (available : Bool) : (markPage page available).Blind :=
  Op.modify_blind _

theorem markRange_blind (start count : Nat) (available : Bool) :
    (markRange start count available).Blind := by
  unfold markRange
  split
  · exact Call.lift_blind (Op.modify_blind _)
  · exact Call.throw_blind _

theorem ensureTable_blind (i : EntryIndex) (user : Bool) : (ensureTable i user).Blind := by
  refine (Call.lift_blind (directoryEntry_blind i)).bind fun link => ?_
  cases link.table? with
  | some table =>
    dsimp only
    split
    · refine (Call.lift_blind (setDirectoryEntry_blind i _)).bind fun _ => ?_
      exact Call.pure_blind _
    · exact Call.pure_blind _
  | none =>
    refine (Call.lift_blind takeFrame_blind).bind fun taken => ?_
    cases taken with
    | none => exact Call.throw_blind _
    | some table =>
      refine (Call.lift_blind (zeroFrame_blind table)).bind fun _ => ?_
      refine (Call.lift_blind (setDirectoryEntry_blind i _)).bind fun _ => ?_
      exact (Call.record_blind _).bind fun _ => Call.pure_blind _

theorem releaseTableIfEmpty_blind (i : EntryIndex) : (releaseTableIfEmpty i).Blind := by
  refine (Op.read_blind _).bind fun n => ?_
  split
  · refine (directoryEntry_blind i).bind fun link => ?_
    cases link.table? with
    | none => exact Op.pure_blind _
    | some table =>
      refine (setDirectoryEntry_blind i _).bind fun _ => ?_
      refine (freeFrame_blind table).bind fun freed => ?_
      cases freed with
      | ok _ => exact Op.record_blind _
      | error cause => exact (Op.record_blind _).bind fun _ => Op.record_blind _
  · exact Op.pure_blind _

/-! ### Mapping and unmapping -/

theorem fillEntry_blind (table : Frame) (va : VirtualAddress) (e : TableEntry) (event : Event) :
    Call.Blind (do
      setTableEntry table va.tableIndex e
      incrementOccupancy va.directoryIndex
      markPage va.page false
      Call.record event : Call PagingError Mmu Unit) := by
  refine (Call.lift_blind (setTableEntry_blind table _ e)).bind fun _ => ?_
  refine (Call.lift_blind (incrementOccupancy_blind _)).bind fun _ => ?_
  exact (Call.lift_blind (markPage_blind _ _)).bind fun _ => Call.record_blind event

theorem assign_blind (pa : PhysicalAddress) (va : VirtualAddress) (flags : EntryBits) :
    (assign pa va flags).Blind := by
  unfold assign
  dsimp only
  split
  · exact Call.throw_bind_blind _ _
  refine (Call.lift_blind (Op.inspect_blind _)).bind fun e => ?_
  split
  · exact Call.throw_bind_blind _ _
  refine (ensureTable_blind _ _).bind fun table => ?_
  split
  · exact fillEntry_blind table va _ _
  refine (Call.lift_blind (reserveFrame_blind _)).bind fun reserved => ?_
  cases reserved with
  | ok _ => exact fillEntry_blind table va _ _
  | error cause =>
    refine (Call.lift_blind (releaseTableIfEmpty_blind _)).bind fun _ => ?_
    exact Call.throw_bind_blind _ _

theorem firstAbsent_blind (i n : Nat) : (firstAbsent i n).Blind := by
  induction n generalizing i with
  | zero => exact Op.pure_blind _
  | succ n ih =>
    refine (Op.ofExcept_blind _).bind fun page => (Op.inspect_blind _).bind fun e => ?_
    split
    · exact ih _
    · exact Op.pure_blind _

theorem unassignPage_blind (i : Nat) : (unassignPage i).Blind := by
  refine (Op.ofExcept_blind _).bind fun ⟨directoryIndex, tableIndex⟩ => ?_
  refine (directoryEntry_blind directoryIndex).bind fun link => ?_
  cases link.table? with
  | none => exact Op.pure_blind _
  | some table =>
    refine (tableEntry_blind table tableIndex).bind fun old => ?_
    have hclear : (do
        setTableEntry table tableIndex .zero
        decrementOccupancy directoryIndex
        releaseTableIfEmpty directoryIndex).Blind := by
      refine (setTableEntry_blind table tableIndex .zero).bind fun _ => ?_
      exact (decrementOccupancy_blind _).bind fun _ => releaseTableIfEmpty_blind _
    dsimp only
    split
    · exact hclear
    · refine (freeFrame_blind old.frame).bind fun freed => ?_
      cases freed with
      | ok _ => exact hclear
      | error cause => exact (Op.record_blind _).bind fun _ => hclear

theorem unassignPages_blind (i n : Nat) : (unassignPages i n).Blind := by
  induction n generalizing i with
  | zero => exact Op.pure_blind _
  | succ n ih => exact (unassignPage_blind i).bind fun _ => ih _

theorem unassign_blind (start count : Nat) : (unassign start count).Blind := by
  unfold unassign
  dsimp only
  split
  · exact Call.throw_bind_blind _ _
  refine (Call.lift_blind (firstAbsent_blind start count)).bind fun absent => ?_
  cases absent with
  | some page => exact Call.throw_bind_blind _ _
  | none =>
    refine (Call.lift_blind (unassignPages_blind start count)).bind fun _ => ?_
    exact (markRange_blind start count true).bind fun _ => Call.record_blind _

/-! ### Ranges -/

theorem mapFresh_blind (va : VirtualAddress) (writable user : Bool) :
    (mapFresh va writable user).Blind := by
  refine (Call.lift_blind takeFrame_blind).bind fun taken => ?_
  cases taken with
  | none => exact Call.throw_blind _
  | some frame =>
    refine (Call.lift_blind (zeroFrame_blind frame)).bind fun _ => ?_
    have hassign : (assignOwned frame.base va writable user).Blind := assign_blind _ _ _
    refine (Call.lift_blind (Call.blind_iff.mp hassign)).bind fun answer => ?_
    cases answer with
    | ok _ => exact Call.pure_blind _
    | error cause =>
      refine (Call.lift_blind (freeFrame_blind frame)).bind fun freed => ?_
      cases freed with
      | ok _ => exact Call.throw_blind _
      | error stuck => exact (Call.record_blind _).bind fun _ => Call.throw_blind _

theorem rollback_blind (first mapped : Nat) : (rollback first mapped).Blind := by
  unfold rollback
  split
  · exact Op.pure_blind _
  · refine (Call.blind_iff.mp (unassign_blind first mapped)).bind fun answer => ?_
    cases answer with
    | ok _ => exact Op.pure_blind _
    | error cause => exact Op.record_blind _

theorem mapFreshPages_blind (first : Nat) (writable user : Bool) (mapped remaining : Nat) :
    (mapFreshPages first writable user mapped remaining).Blind := by
  induction remaining generalizing mapped with
  | zero => exact Call.pure_blind _
  | succ remaining ih =>
    refine (Call.lift_blind (Op.ofExcept_blind _)).bind fun page => ?_
    refine Call.Blind.bind (Call.Blind.tryCatch (mapFresh_blind _ _ _) fun cause => ?_)
      fun _ => ih _
    exact (Call.lift_blind (rollback_blind first mapped)).bind fun _ => Call.throw_blind _

theorem map_blind (hint : VirtualAddress) (length : Nat) (writable user : Bool) :
    (map hint length writable user).Blind := by
  unfold map
  dsimp only
  split
  · exact Call.throw_bind_blind _ _
  refine (Call.lift_blind (Op.read_blind _)).bind fun run => ?_
  cases run with
  | none => exact Call.throw_blind _
  | some base =>
    refine (mapFreshPages_blind _ _ _ _ _).bind fun _ => ?_
    exact (Call.record_blind _).bind fun _ => Call.pure_blind _

theorem unmap_blind (va : VirtualAddress) (length : Nat) : (unmap va length).Blind := by
  unfold unmap
  dsimp only
  split
  · exact Call.throw_bind_blind _ _
  split
  · exact Call.throw_blind _
  · exact ((unassign_blind _ _).adapt _).bind fun _ => Call.record_blind _

theorem framesOf_blind (source : AddressSpace) (i n : Nat) : (framesOf source i n).Blind := by
  induction n generalizing i with
  | zero => exact Call.pure_blind _
  | succ n ih =>
    refine (Call.lift_blind (Op.ofExcept_blind _)).bind fun page => ?_
    refine (Call.lift_blind (Op.inspect_blind _)).bind fun found => ?_
    cases found with
    | none => exact Call.throw_blind _
    | some pa => exact (ih _).bind fun _ => Call.pure_blind _

theorem lendFrames_blind (first mapped : Nat) (frames : List Frame) :
    (lendFrames first mapped frames).Blind := by
  induction frames generalizing mapped with
  | nil => exact Call.pure_blind _
  | cons frame rest ih =>
    refine (Call.lift_blind (Op.ofExcept_blind _)).bind fun page => ?_
    refine Call.Blind.bind (Call.Blind.tryCatch ((assign_blind _ _ _).adapt _) fun cause => ?_)
      fun _ => ih _
    exact (Call.lift_blind (rollback_blind first mapped)).bind fun _ => Call.throw_blind _

theorem aliasRun_blind (pages : Nat) : (aliasRun pages).Blind := by
  refine (Op.read_blind _).bind fun run => ?_
  cases run with
  | none => exact Op.pure_blind _
  | some base => exact (Op.ofExcept_blind _).bind fun stop => Op.pure_blind _

theorem lend_blind (source? : Option AddressSpace) (user : VirtualAddress) (length : Nat) :
    (lend source? user length).Blind := by
  cases source? with
  | none => exact Call.throw_blind _
  | some source =>
    unfold lend
    dsimp only
    split
    · exact Call.throw_bind_blind _ _
    split
    · exact Call.throw_bind_blind _ _
    refine (framesOf_blind source _ _).bind fun frames => ?_
    refine (Call.lift_blind (aliasRun_blind _)).bind fun run => ?_
    cases run with
    | none => exact Call.throw_blind _
    | some kernel =>
      refine (lendFrames_blind _ _ frames).bind fun _ => ?_
      exact (Call.record_blind _).bind fun _ => Call.lift_blind (Op.ofExcept_blind _)

theorem takeBack_blind (kernel : VirtualAddress) (length : Nat) :
    (takeBack kernel length).Blind := by
  unfold takeBack
  dsimp only
  split
  · exact Call.throw_bind_blind _ _
  · exact ((unassign_blind _ _).adapt _).bind fun _ => Call.record_blind _

end Mmu

namespace AddressSpace

theorem releaseEntries_blind (owned : Nat) (entries : List TableEntry) :
    (releaseEntries owned entries).Blind := by
  induction entries generalizing owned with
  | nil => exact Op.pure_blind _
  | cons e rest ih =>
    unfold releaseEntries
    split
    · exact ih _
    · refine (Machine.freeFrame_blind e.frame).bind fun freed => ?_
      cases freed with
      | ok _ => exact (Op.ofExcept_blind _).bind fun owned => ih _
      | error cause => exact (Op.record_blind _).bind fun _ => ih _

theorem releaseTables_blind (owned : Nat) (tables : List Frame) :
    (releaseTables owned tables).Blind := by
  induction tables generalizing owned with
  | nil => exact Op.pure_blind _
  | cons table rest ih =>
    refine (Op.inspect_blind _).bind fun entries => ?_
    refine (releaseEntries_blind owned entries).bind fun owned => ?_
    refine (Machine.freeFrame_blind table).bind fun freed => ?_
    cases freed with
    | ok _ => exact ih _
    | error cause => exact (Op.record_blind _).bind fun _ => ih _

theorem release_blind (s : AddressSpace) : s.release.Blind := by
  refine (Op.inspect_blind _).bind fun tables => ?_
  refine (releaseTables_blind 0 tables).bind fun owned => ?_
  refine (Machine.freeFrame_blind s.directory).bind fun freed => ?_
  cases freed with
  | ok _ => exact Op.record_blind _
  | error cause => exact (Op.record_blind _).bind fun _ => Op.record_blind _

end AddressSpace

end PagedKernel
