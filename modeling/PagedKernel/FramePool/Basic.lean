import PagedKernel.Address.Physical
import PagedKernel.Bitmap.Search

/-! The pool of physical frames: a bitmap over every frame of the 32-bit
physical address space, with a hint below which no frame is available. Frames
from `limit` on are not managed: they can be neither freed nor reserved. -/

namespace PagedKernel

inductive FrameError where
  | outOfRange (frame : Frame)
  /-- The frame is available already. -/
  | doubleFree (frame : Frame)
  deriving DecidableEq

namespace FrameError

def message : FrameError → String
  | outOfRange f => s!"frame {f} is outside the managed physical range"
  | doubleFree f => s!"frame {f} was freed while already available"

instance : ToString FrameError := ⟨message⟩

def kind : FrameError → String
  | outOfRange _ => "OutOfRange"
  | doubleFree _ => "DoubleFree"

instance : Refusal FrameError where
  debug e := match e with
    | outOfRange f => Text.tuple e.kind [debug f]
    | doubleFree f => Text.tuple e.kind [debug f]
  kind := kind
  message := message

end FrameError

structure FramePool where
  frames : Bitmap pageCount
  hint : Nat
  limit : Nat

namespace FramePool

def empty : FramePool where
  frames := .filled pageCount false
  hint := 0
  limit := pageCount

instance : Inhabited FramePool := ⟨empty⟩

def isAvailable (pool : FramePool) (f : Frame) : Bool :=
  pool.frames.bit f.index.val f.index.isLt

def available (pool : FramePool) : Nat :=
  pool.frames.countTrue

def alloc : FramePool → Option Frame × FramePool
  | ⟨frames, hint, limit⟩ =>
    match frames.nextTrue hint with
    | none => (none, ⟨frames, hint, limit⟩)
    | some i => (some ⟨i⟩, ⟨frames.write i.val false i.isLt, i.val + 1, limit⟩)

def free (f : Frame) : FramePool → Except FrameError Unit × FramePool
  | ⟨frames, hint, limit⟩ =>
    if limit ≤ f.index.val then (.error (.outOfRange f), ⟨frames, hint, limit⟩)
    else if frames.bit f.index.val f.index.isLt then
      (.error (.doubleFree f), ⟨frames, hint, limit⟩)
    else
      (.ok (), ⟨frames.write f.index.val true f.index.isLt, min hint f.index.val, limit⟩)

/-- Marks a frame as in use, whether or not it already is. -/
def reserve (f : Frame) : FramePool → Except FrameError Unit × FramePool
  | ⟨frames, hint, limit⟩ =>
    if limit ≤ f.index.val then (.error (.outOfRange f), ⟨frames, hint, limit⟩)
    else (.ok (), ⟨frames.write f.index.val false f.index.isLt, hint, limit⟩)

/-- Makes frames available, as far as the range lies below the last frame. -/
def releaseRange (first count : Nat) : FramePool → FramePool
  | ⟨frames, hint, limit⟩ =>
    if h : first + min count (pageCount - first) ≤ pageCount then
      ⟨frames.fillFrom true first (first + min count (pageCount - first)) h, min hint first, limit⟩
    else ⟨frames, hint, limit⟩

theorem alloc_limit (pool : FramePool) : pool.alloc.2.limit = pool.limit := by
  obtain ⟨frames, hint, limit⟩ := pool
  simp only [alloc]
  split <;> rfl

theorem free_limit (pool : FramePool) (f : Frame) : (pool.free f).2.limit = pool.limit := by
  obtain ⟨frames, hint, limit⟩ := pool
  simp only [free]
  split
  · rfl
  · split <;> rfl

theorem reserve_limit (pool : FramePool) (f : Frame) : (pool.reserve f).2.limit = pool.limit := by
  obtain ⟨frames, hint, limit⟩ := pool
  simp only [reserve]
  split <;> rfl

end FramePool
end PagedKernel
