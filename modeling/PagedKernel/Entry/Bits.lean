import PagedKernel.Address.Physical

/-! The 32-bit paging entry. Directory entries and table entries share one
layout: nine hardware flags from bit 0 up, the mark of a borrowed frame in
bit 9, two spare bits, and the frame number in the upper twenty. Encoding and
decoding are inverse to each other in both directions. -/

namespace PagedKernel

inductive EntryFlag where
  | present
  | writable
  | userAccess
  | writeThrough
  | cacheDisabled
  | accessed
  | dirty
  | largePage
  | globalPage
  | borrowed
  deriving DecidableEq

namespace EntryFlag

def all : List EntryFlag :=
  [present, writable, userAccess, writeThrough, cacheDisabled, accessed,
    dirty, largePage, globalPage, borrowed]

def name : EntryFlag → String
  | present => "present"
  | writable => "writable"
  | userAccess => "user_access"
  | writeThrough => "write_through"
  | cacheDisabled => "cache_disabled"
  | accessed => "accessed"
  | dirty => "dirty"
  | largePage => "large_page"
  | globalPage => "global_translation"
  | borrowed => "alias"

def ofName? (text : String) : Option EntryFlag :=
  all.find? fun flag => flag.name = text

end EntryFlag

structure EntryBits where
  present : Bool := false
  writable : Bool := false
  userAccess : Bool := false
  writeThrough : Bool := false
  cacheDisabled : Bool := false
  accessed : Bool := false
  dirty : Bool := false
  largePage : Bool := false
  globalPage : Bool := false
  /-- The entry borrows its frame; taking it down returns nothing to the pool. -/
  borrowed : Bool := false
  osAvailable : Fin 4 := 0
  frameNumber : Fin pageCount := ⟨0, pageCount_pos⟩
  deriving DecidableEq

namespace EntryBits

instance : Inhabited EntryBits := ⟨{}⟩

def flag (e : EntryBits) : EntryFlag → Bool
  | .present => e.present
  | .writable => e.writable
  | .userAccess => e.userAccess
  | .writeThrough => e.writeThrough
  | .cacheDisabled => e.cacheDisabled
  | .accessed => e.accessed
  | .dirty => e.dirty
  | .largePage => e.largePage
  | .globalPage => e.globalPage
  | .borrowed => e.borrowed

def withFlag (e : EntryBits) (value : Bool) : EntryFlag → EntryBits
  | .present => { e with present := value }
  | .writable => { e with writable := value }
  | .userAccess => { e with userAccess := value }
  | .writeThrough => { e with writeThrough := value }
  | .cacheDisabled => { e with cacheDisabled := value }
  | .accessed => { e with accessed := value }
  | .dirty => { e with dirty := value }
  | .largePage => { e with largePage := value }
  | .globalPage => { e with globalPage := value }
  | .borrowed => { e with borrowed := value }

theorem flag_withFlag (e : EntryBits) (value : Bool) (f g : EntryFlag) :
    (e.withFlag value f).flag g = if f = g then value else e.flag g := by
  cases f <;> cases g <;> rfl

@[inline] def bitAt (n k : Nat) : Bool :=
  (n >>> k) % 2 == 1

def ofRaw (raw : UInt32) : EntryBits where
  present := bitAt raw.toNat 0
  writable := bitAt raw.toNat 1
  userAccess := bitAt raw.toNat 2
  writeThrough := bitAt raw.toNat 3
  cacheDisabled := bitAt raw.toNat 4
  accessed := bitAt raw.toNat 5
  dirty := bitAt raw.toNat 6
  largePage := bitAt raw.toNat 7
  globalPage := bitAt raw.toNat 8
  borrowed := bitAt raw.toNat 9
  osAvailable := ⟨raw.toNat / 1024 % 4, Nat.mod_lt _ (by decide)⟩
  frameNumber := ⟨raw.toNat / 4096, by
    have h := raw.toNat_lt
    simp only [pageCount_value]
    omega⟩

def flagValue (e : EntryBits) : Nat :=
  e.present.toNat + 2 * e.writable.toNat + 4 * e.userAccess.toNat +
    8 * e.writeThrough.toNat + 16 * e.cacheDisabled.toNat + 32 * e.accessed.toNat +
    64 * e.dirty.toNat + 128 * e.largePage.toNat + 256 * e.globalPage.toNat +
    512 * e.borrowed.toNat

theorem flagValue_lt (e : EntryBits) : e.flagValue < 1024 := by
  have h0 := e.present.toNat_le
  have h1 := e.writable.toNat_le
  have h2 := e.userAccess.toNat_le
  have h3 := e.writeThrough.toNat_le
  have h4 := e.cacheDisabled.toNat_le
  have h5 := e.accessed.toNat_le
  have h6 := e.dirty.toNat_le
  have h7 := e.largePage.toNat_le
  have h8 := e.globalPage.toNat_le
  have h9 := e.borrowed.toNat_le
  simp only [flagValue]
  omega

def toRaw (e : EntryBits) : UInt32 :=
  UInt32.ofNat (e.flagValue + 1024 * e.osAvailable.val + 4096 * e.frameNumber.val)

theorem toRaw_toNat (e : EntryBits) :
    e.toRaw.toNat = e.flagValue + 1024 * e.osAvailable.val + 4096 * e.frameNumber.val := by
  have hf := e.flagValue_lt
  have ho := e.osAvailable.isLt
  have hn := e.frameNumber.isLt
  simp only [pageCount_value] at hn
  simp only [toRaw, UInt32.toNat_ofNat']
  omega

theorem bitAt_toNat (n k : Nat) : (bitAt n k).toNat = (n >>> k) % 2 := by
  have h := Nat.mod_lt (n >>> k) (show 0 < 2 by decide)
  by_cases hb : (n >>> k) % 2 = 1
  · simp [bitAt, hb]
  · have hz : (n >>> k) % 2 = 0 := by omega
    simp [bitAt, hz]

theorem bitAt_eq_of_toNat {n k : Nat} {b : Bool} (h : (n >>> k) % 2 = b.toNat) :
    bitAt n k = b := by
  cases b <;> simp_all [bitAt]

@[simp] theorem toRaw_ofRaw (raw : UInt32) : (ofRaw raw).toRaw = raw := by
  rw [← UInt32.toNat_inj, toRaw_toNat]
  simp only [flagValue, ofRaw, bitAt_toNat, Nat.shiftRight_eq_div_pow, Nat.reducePow]
  omega

@[simp] theorem ofRaw_toRaw (e : EntryBits) : ofRaw e.toRaw = e := by
  have h := e.toRaw_toNat
  have h0 := e.present.toNat_le
  have h1 := e.writable.toNat_le
  have h2 := e.userAccess.toNat_le
  have h3 := e.writeThrough.toNat_le
  have h4 := e.cacheDisabled.toNat_le
  have h5 := e.accessed.toNat_le
  have h6 := e.dirty.toNat_le
  have h7 := e.largePage.toNat_le
  have h8 := e.globalPage.toNat_le
  have h9 := e.borrowed.toNat_le
  have ho := e.osAvailable.isLt
  simp only [flagValue] at h
  cases e with | mk p w u wt cd a d lp g b os f =>
  simp only at h h0 h1 h2 h3 h4 h5 h6 h7 h8 h9 ho
  simp only [ofRaw, EntryBits.mk.injEq, Fin.ext_iff]
  refine ⟨?_, ?_, ?_, ?_, ?_, ?_, ?_, ?_, ?_, ?_, ?_, ?_⟩
  all_goals first
    | exact bitAt_eq_of_toNat (by simp only [Nat.shiftRight_eq_div_pow, Nat.reducePow]; omega)
    | omega

def frame (e : EntryBits) : Frame :=
  ⟨e.frameNumber⟩

def withFrame (e : EntryBits) (f : Frame) : EntryBits :=
  { e with frameNumber := f.index }

@[simp] theorem frame_withFrame (e : EntryBits) (f : Frame) : (e.withFrame f).frame = f := rfl

/-- Sets the two spare bits; a value above 3 is a fault. -/
def withOsAvailable (e : EntryBits) (v : Nat) : Except Fault EntryBits :=
  if h : v < 4 then .ok { e with osAvailable := ⟨v, h⟩ } else .error (.fieldBounds 3)

def kernelWritable : EntryBits :=
  { present := true, writable := true }

def leaf (writable user borrowed : Bool) : EntryBits :=
  { present := true, writable := writable, userAccess := user, borrowed := borrowed }

instance : Debug EntryBits where
  debug e := Text.record "PageEntryBits" (EntryFlag.all.map (fun f => (f.name, debug (e.flag f))) ++
    [("os_available", debug e.osAvailable.val), ("frame_number", debug e.frameNumber.val)])

end EntryBits
end PagedKernel
