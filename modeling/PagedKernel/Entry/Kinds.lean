import PagedKernel.Entry.Bits

/-! The two kinds of paging entries. A directory entry links a page table; a
table entry maps one frame. -/

namespace PagedKernel

/-- An entry of a page table. Its frame means something only while present. -/
structure TableEntry where
  flags : EntryBits
  deriving DecidableEq

namespace TableEntry

def zero : TableEntry := ⟨default⟩

instance : Inhabited TableEntry := ⟨zero⟩

def ofRaw (raw : UInt32) : TableEntry := ⟨.ofRaw raw⟩

def toRaw (e : TableEntry) : UInt32 := e.flags.toRaw

def ofFrame (f : Frame) (flags : EntryBits) : TableEntry :=
  ⟨{ flags with present := true, largePage := false, frameNumber := f.index }⟩

def isPresent (e : TableEntry) : Bool := e.flags.present

def isWritable (e : TableEntry) : Bool := e.flags.writable

def isUser (e : TableEntry) : Bool := e.flags.userAccess

def isBorrowed (e : TableEntry) : Bool := e.flags.borrowed

def frame (e : TableEntry) : Frame := e.flags.frame

def mapping? (e : TableEntry) : Option (Frame × EntryBits) :=
  if e.isPresent then some (e.frame, e.flags) else none

theorem mapping?_ofFrame (f : Frame) (flags : EntryBits) :
    (ofFrame f flags).mapping? =
      some (f, { flags with present := true, largePage := false, frameNumber := f.index }) := rfl

@[simp] theorem ofRaw_toRaw (e : TableEntry) : ofRaw e.toRaw = e := by
  simp only [ofRaw, toRaw, EntryBits.ofRaw_toRaw]

@[simp] theorem toRaw_ofRaw (raw : UInt32) : (ofRaw raw).toRaw = raw :=
  EntryBits.toRaw_ofRaw raw

instance : Debug TableEntry where
  debug e := Text.tuple "PageTableEntry" [debug e.flags]

end TableEntry

structure DirectoryEntry where
  flags : EntryBits
  deriving DecidableEq

namespace DirectoryEntry

def zero : DirectoryEntry := ⟨default⟩

instance : Inhabited DirectoryEntry := ⟨zero⟩

def ofRaw (raw : UInt32) : DirectoryEntry := ⟨.ofRaw raw⟩

def toRaw (e : DirectoryEntry) : UInt32 := e.flags.toRaw

/-- A link to the page table in a frame. Links are always writable, the table
entry decides; `user` is needed when any page below is for user code. -/
def ofTable (table : Frame) (user : Bool) : DirectoryEntry :=
  ⟨{ EntryBits.kernelWritable with userAccess := user, frameNumber := table.index }⟩

def isPresent (e : DirectoryEntry) : Bool := e.flags.present

def table? (e : DirectoryEntry) : Option Frame :=
  if e.isPresent then some e.flags.frame else none

def withUserAccess (e : DirectoryEntry) (user : Bool) : DirectoryEntry :=
  ⟨{ e.flags with userAccess := user }⟩

theorem table?_ofTable (table : Frame) (user : Bool) :
    (ofTable table user).table? = some table := rfl

@[simp] theorem table?_withUserAccess (e : DirectoryEntry) (user : Bool) :
    (e.withUserAccess user).table? = e.table? := rfl

@[simp] theorem ofRaw_toRaw (e : DirectoryEntry) : ofRaw e.toRaw = e := by
  simp only [ofRaw, toRaw, EntryBits.ofRaw_toRaw]

@[simp] theorem toRaw_ofRaw (raw : UInt32) : (ofRaw raw).toRaw = raw :=
  EntryBits.toRaw_ofRaw raw

end DirectoryEntry
end PagedKernel
