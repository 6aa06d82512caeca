import PagedKernel.Entry.Table
import PagedKernel.MemoryLayout

/-! Physical memory: an array of frames. It is reached in one of two ways. An
arena holds just the frames that are installed; the identity window holds the
frames below its end. Touching any other frame is a fault. -/

namespace PagedKernel

namespace FrameWords

/-- The byte at an offset; words are stored with the low byte first. -/
def byte (words : FrameWords) (offset : Nat) : UInt8 :=
  have h : offset % 4096 / 4 < entriesPerTable := by
    simp only [entriesPerTable_value]
    omega
  (words[offset % 4096 / 4] >>> UInt32.ofNat (8 * (offset % 4))).toUInt8

def setByte (words : FrameWords) (offset : Nat) (b : UInt8) : FrameWords :=
  have h : offset % 4096 / 4 < entriesPerTable := by
    simp only [entriesPerTable_value]
    omega
  let shift := UInt32.ofNat (8 * (offset % 4))
  let kept := words[offset % 4096 / 4] &&& ~~~((255 : UInt32) <<< shift)
  words.set (offset % 4096 / 4) (kept ||| (b.toUInt32 <<< shift)) h

theorem byte_zero (offset : Nat) : FrameWords.zero.byte offset = 0 := by
  simp only [byte, zero, Vector.getElem_replicate, UInt32.zero_shiftRight]
  rfl

end FrameWords

/-- How physical memory is reached. -/
inductive Reach where
  | arena
  | identityWindow
  deriving DecidableEq

structure Ram where
  frames : Array FrameWords
  reach : Reach

namespace Ram

def arena (n : Nat) : Ram :=
  ⟨Array.replicate n .zero, .arena⟩

def identityWindow : Ram :=
  ⟨Array.replicate MemoryLayout.kernelWindowPages .zero, .identityWindow⟩

def frameCount (ram : Ram) : Nat :=
  ram.frames.size

def installed (ram : Ram) (f : Frame) : Prop :=
  f.index.val < ram.frames.size

instance (ram : Ram) (f : Frame) : Decidable (ram.installed f) :=
  inferInstanceAs (Decidable (_ < _))

def missing (ram : Ram) (pa : PhysicalAddress) : Fault :=
  match ram.reach with
  | .arena => .frameMissing ram.frames.size pa.pageIndex
  | .identityWindow => .outsideWindow pa.bits

def check (ram : Ram) (pa : PhysicalAddress) : Except Fault Unit :=
  if ram.installed pa.frame then .ok () else .error (ram.missing pa)

def read (ram : Ram) (f : Frame) : Except Fault FrameWords :=
  match ram.frames[f.index.val]? with
  | some words => .ok words
  | none => .error (ram.missing f.base)

/-- Changes the contents of a frame; without that frame nothing changes. -/
def change (f : Frame) (g : FrameWords → FrameWords) : Ram → Ram
  | ⟨frames, reach⟩ => ⟨frames.modify f.index.val g, reach⟩

def table (ram : Ram) (f : Frame) : Except Fault PageTable :=
  (ram.read f).map (⟨·⟩)

def directory (ram : Ram) (f : Frame) : Except Fault PageDirectory :=
  (ram.read f).map (⟨·⟩)

def byte (ram : Ram) (pa : PhysicalAddress) : Except Fault UInt8 := do
  ram.check pa
  let words ← ram.read pa.frame
  return words.byte pa.offset.toNat

def setByte (pa : PhysicalAddress) (b : UInt8) (ram : Ram) : Ram :=
  ram.change pa.frame (·.setByte pa.offset.toNat b)

/-- The bytes from an address on; memory that is not installed, or the end of
the physical space, is a fault. -/
def readBytes (ram : Ram) (pa : PhysicalAddress) : Nat → Nat → Except Fault (List UInt8)
  | _, 0 => .ok []
  | i, n + 1 => do
    let b ← ram.byte (← pa.add (UInt32.ofNat i))
    return b :: (← ram.readBytes pa (i + 1) n)

theorem read_change (ram : Ram) (f g : Frame) (h : FrameWords → FrameWords) :
    (ram.change f h).read g = if f = g then (ram.read g).map h else ram.read g := by
  obtain ⟨frames, reach⟩ := ram
  have hfg : f = g ↔ f.index.val = g.index.val := by
    cases f
    cases g
    simp only [Frame.mk.injEq, Fin.ext_iff]
  simp only [change, read, missing, Array.getElem?_modify, Array.size_modify, hfg]
  by_cases he : f.index.val = g.index.val
  · rw [if_pos he, if_pos he]
    cases frames[g.index.val]? <;> rfl
  · rw [if_neg he, if_neg he]

end Ram
end PagedKernel
