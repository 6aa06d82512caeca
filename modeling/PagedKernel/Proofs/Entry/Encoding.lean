import PagedKernel.Entry.Kinds
import PagedKernel.Proofs.BitField

/-! The word of a paging entry. The constructors write a few fields of the word, and reading it
back gives what was written; every other bit is the one that was there before. -/

namespace PagedKernel

namespace EntryFlag

def position : EntryFlag → Nat
  | present => 0
  | writable => 1
  | userAccess => 2
  | writeThrough => 3
  | cacheDisabled => 4
  | accessed => 5
  | dirty => 6
  | largePage => 7
  | globalPage => 8
  | borrowed => 9

theorem position_lt (f : EntryFlag) : f.position < 10 := by
  cases f <;> decide

end EntryFlag

inductive EntryField where
  | flag (f : EntryFlag)
  | spare
  | frameNumber
  deriving DecidableEq

namespace EntryField

def bits : EntryField → BitField
  | .flag f => ⟨f.position, 1, Nat.le_trans f.position_lt (by decide)⟩
  | .spare => ⟨10, 2, by decide⟩
  | .frameNumber => ⟨12, 20, by decide⟩

def holding (k : Nat) : EntryField :=
  match EntryFlag.all[k]? with
  | some f => .flag f
  | none => if k < 12 then .spare else .frameNumber

theorem has_iff_holding (i : EntryField) (k : Fin 32) : i.bits.Has k.val ↔ holding k.val = i := by
  revert k
  cases i with
  | flag f => cases f <;> decide
  | spare => decide
  | frameNumber => decide

def layout : WordLayout EntryField where
  field := bits
  place := holding
  has_iff i k := by
    by_cases hk : k < 32
    · exact (i.has_iff_holding ⟨k, hk⟩).trans (and_iff_right hk).symm
    · -- past the word no field has a bit
      have hfits := i.bits.fits
      exact iff_of_false (fun h => hk (Nat.lt_of_lt_of_le h.2 hfits)) fun h => hk h.1

end EntryField

namespace EntryBits

variable (e : EntryBits) (value : Bool) (f : EntryFlag) (g : Frame) (i : EntryField) (w : UInt32)

def field : EntryField → Nat
  | .flag f => (e.flag f).toNat
  | .spare => e.osAvailable.val
  | .frameNumber => e.frameNumber.val

theorem flag_ofRaw : (ofRaw w).flag f = w.toNat.testBit f.position := by
  have h : (ofRaw w).flag f = bitAt w.toNat f.position := by cases f <;> rfl
  rw [h, Nat.testBit_eq_decide_div_mod_eq, bitAt, Nat.shiftRight_eq_div_pow]
  rfl

theorem field_ofRaw : (ofRaw w).field i = (EntryField.layout.field i).read w := by
  rw [BitField.read_eq]
  cases i with
  | flag f =>
    rw [field, flag_ofRaw, Nat.toNat_testBit]
    rfl
  | spare => rfl
  | frameNumber =>
    have h := w.toNat_lt
    simp only [field, ofRaw, EntryField.layout, EntryField.bits]
    omega

theorem read_toRaw : (EntryField.layout.field i).read e.toRaw = e.field i := by
  rw [← field_ofRaw, ofRaw_toRaw]

theorem field_withFlag : (e.withFlag value f).field i =
    if i = .flag f then value.toNat else e.field i := by
  cases i with
  | flag g =>
    simp only [field, flag_withFlag, EntryField.flag.injEq]
    by_cases h : f = g
    · rw [if_pos h, if_pos h.symm]
    · rw [if_neg h, if_neg (Ne.symm h)]
  | spare => cases f <;> rfl
  | frameNumber => cases f <;> rfl

theorem field_withFrame : (e.withFrame g).field i =
    if i = .frameNumber then g.index.val else e.field i := by
  cases i with
  | flag f => cases f <;> rfl
  | spare => rfl
  | frameNumber => rfl

theorem testBit_withFlag (k : Nat) : (e.withFlag value f).toRaw.toNat.testBit k =
    if k = f.position then value else e.toRaw.toNat.testBit k := by
  have hhas : (EntryField.layout.field (.flag f)).Has k ↔ k = f.position := by
    simp only [BitField.Has, EntryField.layout, EntryField.bits]
    omega
  have hlow : (EntryField.layout.field (.flag f)).low = f.position := rfl
  have hread : ∀ j, (EntryField.layout.field j).read (e.withFlag value f).toRaw =
      if j = .flag f then value.toNat else (EntryField.layout.field j).read e.toRaw := fun j => by
    rw [read_toRaw, read_toRaw, field_withFlag]
  rw [EntryField.layout.testBit_of_read value.toNat_lt hread]
  by_cases hk : k = f.position
  · rw [if_pos (hhas.mpr hk), if_pos hk, hlow, hk, Nat.sub_self]
    cases value <;> rfl
  · rw [if_neg (hhas.not.mpr hk), if_neg hk]

theorem testBit_withFrame {k : Nat} (hk : k < 32) : (e.withFrame g).toRaw.toNat.testBit k =
    if k < 12 then e.toRaw.toNat.testBit k else g.index.val.testBit (k - 12) := by
  have hhas : (EntryField.layout.field .frameNumber).Has k ↔ ¬ k < 12 := by
    simp only [BitField.Has, EntryField.layout, EntryField.bits]
    omega
  have hread : ∀ j, (EntryField.layout.field j).read (e.withFrame g).toRaw =
      if j = .frameNumber then g.index.val else (EntryField.layout.field j).read e.toRaw :=
    fun j => by rw [read_toRaw, read_toRaw, field_withFrame]
  rw [EntryField.layout.testBit_of_read g.index.isLt hread]
  by_cases hlow : k < 12
  · rw [if_neg (hhas.not.mpr (not_not.mpr hlow)), if_pos hlow]
  · rw [if_pos (hhas.mpr hlow), if_neg hlow]
    rfl

theorem frame_ofRaw : (ofRaw w).frame.index.val = (w >>> 12).toNat := by
  rw [UInt32.toNat_shiftRight]
  exact (Nat.shiftRight_eq_div_pow _ 12).symm

theorem mapping?_ofRaw : (TableEntry.ofRaw w).mapping? =
    if w.toNat.testBit 0 then some ((ofRaw w).frame, ofRaw w) else none := by
  have h : (ofRaw w).flag .present = w.toNat.testBit 0 := flag_ofRaw .present w
  rw [← h]
  rfl

theorem table?_ofRaw : (DirectoryEntry.ofRaw w).table? =
    if w.toNat.testBit 0 then some (ofRaw w).frame else none := by
  have h : (ofRaw w).flag .present = w.toNat.testBit 0 := flag_ofRaw .present w
  rw [← h]
  rfl

/-- What a word says as an entry of either kind. -/
structure Decodes (w : UInt32) : Prop where
  flags : ∀ f, (ofRaw w).flag f = w.toNat.testBit f.position
  absent : (TableEntry.ofRaw w).mapping? = none ↔ w.toNat.testBit 0 = false
  unlinked : (DirectoryEntry.ofRaw w).table? = none ↔ w.toNat.testBit 0 = false
  mapped : ∀ g e, (TableEntry.ofRaw w).mapping? = some (g, e) →
    g.index.val = (w >>> 12).toNat ∧ e = ofRaw w
  linked : ∀ g, (DirectoryEntry.ofRaw w).table? = some g → g.index.val = (w >>> 12).toNat
  leafWord : (TableEntry.ofRaw w).toRaw = w
  linkWord : (DirectoryEntry.ofRaw w).toRaw = w

theorem decodes : Decodes w where
  flags f := flag_ofRaw f w
  absent := by
    rw [mapping?_ofRaw]
    cases w.toNat.testBit 0 <;> simp
  unlinked := by
    rw [table?_ofRaw]
    cases w.toNat.testBit 0 <;> simp
  mapped g e h := by
    rw [mapping?_ofRaw] at h
    split at h
    · cases h
      exact ⟨frame_ofRaw w, rfl⟩
    · cases h
  linked g h := by
    rw [table?_ofRaw] at h
    split at h
    · cases h
      exact frame_ofRaw w
    · cases h
  leafWord := TableEntry.toRaw_ofRaw w
  linkWord := DirectoryEntry.toRaw_ofRaw w

end EntryBits

/-- What an entry made for a frame takes from the word its flags came in. -/
structure TableEntry.Maps (e : TableEntry) (f : Frame) (w : UInt32) : Prop where
  present : e.isPresent = true
  frame : e.frame = f
  mapping : e.mapping? = some (f, e.flags)
  notLarge : e.flags.largePage = false
  kept : ∀ flag, flag ≠ .present → flag ≠ .largePage →
    e.flags.flag flag = (EntryBits.ofRaw w).flag flag
  word : ∀ k < 32, e.toRaw.toNat.testBit k =
    if k = 0 then true else if k = 7 then false else if k < 12 then w.toNat.testBit k
    else f.index.val.testBit (k - 12)

theorem TableEntry.ofFrame_maps (f : Frame) (w : UInt32) : (ofFrame f (.ofRaw w)).Maps f w where
  present := rfl
  frame := rfl
  mapping := mapping?_ofFrame f (.ofRaw w)
  notLarge := rfl
  kept flag hpresent hlarge := by
    cases flag with
    | present => exact absurd rfl hpresent
    | largePage => exact absurd rfl hlarge
    | _ => rfl
  word k hk := by
    have hmade : (ofFrame f (.ofRaw w)).flags =
        (((EntryBits.ofRaw w).withFlag true .present).withFlag false .largePage).withFrame f := rfl
    rw [toRaw, hmade, EntryBits.testBit_withFrame _ _ hk, EntryBits.testBit_withFlag,
      EntryBits.testBit_withFlag, EntryBits.toRaw_ofRaw]
    simp only [EntryFlag.position]
    grind

structure DirectoryEntry.Links (d : DirectoryEntry) (f : Frame) (user : Bool) : Prop where
  table : d.table? = some f
  access : d.flags.userAccess = user
  writable : d.flags.writable = true
  word : ∀ k < 32, d.toRaw.toNat.testBit k =
    if k < 2 then true else if k = 2 then user else if k < 12 then false
    else f.index.val.testBit (k - 12)

theorem DirectoryEntry.ofTable_links (f : Frame) (user : Bool) :
    (ofTable f user).Links f user where
  table := table?_ofTable f user
  access := rfl
  writable := rfl
  word k hk := by
    have hmade : (ofTable f user).flags =
        (EntryBits.kernelWritable.withFlag user .userAccess).withFrame f := rfl
    have hword : EntryBits.kernelWritable.toRaw.toNat = 2 ^ 2 - 1 := by decide
    rw [toRaw, hmade, EntryBits.testBit_withFrame _ _ hk, EntryBits.testBit_withFlag, hword,
      Nat.testBit_two_pow_sub_one]
    simp only [EntryFlag.position]
    grind

structure DirectoryEntry.Opens (d d' : DirectoryEntry) (user : Bool) : Prop where
  access : d'.flags.userAccess = user
  table : d'.table? = d.table?
  word : ∀ k, d'.toRaw.toNat.testBit k = if k = 2 then user else d.toRaw.toNat.testBit k

theorem DirectoryEntry.withUserAccess_opens (d : DirectoryEntry) (user : Bool) :
    d.Opens (d.withUserAccess user) user where
  access := rfl
  table := table?_withUserAccess d user
  word := d.flags.testBit_withFlag user .userAccess

/-- Frame and flags share one word, and neither is lost: a made entry reads back as it was made
with every other bit of its flags, opening a link leaves the link, and any word is read for what
it is. -/
theorem encoding_lossless :
    (∀ (f : Frame) (w : UInt32), (TableEntry.ofFrame f (.ofRaw w)).Maps f w) ∧
      (∀ (f : Frame) (user : Bool), (DirectoryEntry.ofTable f user).Links f user) ∧
      (∀ (d : DirectoryEntry) (user : Bool), d.Opens (d.withUserAccess user) user) ∧
      (∀ w : UInt32, EntryBits.Decodes w) ∧ (∀ e : TableEntry, .ofRaw e.toRaw = e) ∧
      ∀ d : DirectoryEntry, .ofRaw d.toRaw = d :=
  ⟨TableEntry.ofFrame_maps, DirectoryEntry.ofTable_links, DirectoryEntry.withUserAccess_opens,
    EntryBits.decodes, TableEntry.ofRaw_toRaw, DirectoryEntry.ofRaw_toRaw⟩

/-- Flags that carry a frame and the bit of a large page lose those two. -/
example : (TableEntry.ofFrame ⟨⟨0x123, by decide⟩⟩ (.ofRaw 0xFFFFFFFF)).toRaw = 0x00123F7F := by
  decide

end PagedKernel
