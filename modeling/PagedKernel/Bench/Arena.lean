import PagedKernel.Bench.ReadBench
import PagedKernel.Range.Identity
import PagedKernel.Range.Mapper
import PagedKernel.Space.Lifetime

/-! A bench for address spaces: an arena of frames, spaces by number, and the
bench of the reads that borrow from them. -/

namespace PagedKernel

structure Arena where
  machine : Machine
  /-- Spaces by number. The number of a released space stays used. -/
  spaces : Array (Option AddressSpace)
  reads : ReadBench

namespace Arena

/-- An arena of zeroed frames. The given ranges are available, and frames from
`limit` on are not managed. -/
def ofRanges (frames limit : Nat) (ranges : List (Nat × Nat)) : Arena :=
  let pool := ranges.foldl (fun pool range => pool.releaseRange range.1 range.2)
    { FramePool.empty with limit }
  ⟨⟨.arena frames, pool⟩, #[], .initial⟩

def clearCalls : Arena → Arena
  | ⟨machine, spaces, reads⟩ => ⟨machine, spaces, reads.clearCalls⟩

def space? (a : Arena) (i : Nat) : Option AddressSpace :=
  a.spaces[i]?.join

def machinePart : Focus Arena Machine :=
  ⟨fun ⟨machine, spaces, reads⟩ => (machine, fun machine => ⟨machine, spaces, reads⟩)⟩

def readsPart : Focus Arena ReadBench :=
  ⟨fun ⟨machine, spaces, reads⟩ => (reads, fun reads => ⟨machine, spaces, reads⟩)⟩

def spacePart (i : Nat) (space : AddressSpace) : Focus Arena Mmu :=
  ⟨fun ⟨machine, spaces, reads⟩ => (⟨machine, space⟩, fun ⟨machine, space⟩ =>
    ⟨machine, spaces.setIfInBounds i (some space), reads⟩)⟩

def mappedReadsPart (i : Nat) (space : AddressSpace) : Focus Arena (Mmu × ReadBench) :=
  ⟨fun ⟨machine, spaces, reads⟩ => ((⟨machine, space⟩, reads), fun (⟨machine, space⟩, reads) =>
    ⟨machine, spaces.setIfInBounds i (some space), reads⟩)⟩

def addSpace (space : AddressSpace) : Op Arena Nat :=
  Op.update fun ⟨machine, spaces, reads⟩ =>
    (spaces.size, ⟨machine, spaces.push (some space), reads⟩)

def create : Call PagingError Arena Nat := do
  let space ← Call.zoom machinePart AddressSpace.create
  addSpace space

def release (i : Nat) (space : AddressSpace) : Op Arena Unit := do
  Op.zoom machinePart space.release
  Op.modify fun ⟨machine, spaces, reads⟩ => ⟨machine, spaces.setIfInBounds i none, reads⟩

end Arena
end PagedKernel
