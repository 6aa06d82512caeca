import PagedKernel.Address.Parts
import PagedKernel.Entry.Kinds

/-! Page directories and page tables as the contents of one frame: 1024 words,
each a paging entry. -/

namespace PagedKernel

abbrev FrameWords := Vector UInt32 entriesPerTable

namespace FrameWords

def zero : FrameWords := Vector.replicate entriesPerTable 0

end FrameWords

structure PageTable where
  words : FrameWords

namespace PageTable

def zero : PageTable := ⟨FrameWords.zero⟩

def get (t : PageTable) (i : EntryIndex) : TableEntry :=
  .ofRaw t.words[i]

def set (t : PageTable) (i : EntryIndex) (e : TableEntry) : PageTable :=
  ⟨t.words.set i.val e.toRaw i.isLt⟩

@[simp] theorem get_zero (i : EntryIndex) : zero.get i = .zero := by
  simp only [zero, get, FrameWords.zero, Fin.getElem_fin, Vector.getElem_replicate]
  decide

theorem get_set (t : PageTable) (i j : EntryIndex) (e : TableEntry) :
    (t.set i e).get j = if i = j then e else t.get j := by
  simp only [get, set, Fin.getElem_fin, Vector.getElem_set, Fin.ext_iff]
  split
  · simp
  · rfl

theorem words_eq_of_get {t t' : PageTable} (h : ∀ i, t.get i = t'.get i) : t.words = t'.words := by
  refine Vector.ext fun i hi => ?_
  have he := congrArg TableEntry.toRaw (h ⟨i, hi⟩)
  simpa only [get, Fin.getElem_fin, TableEntry.toRaw_ofRaw] using he

def present (t : PageTable) : List TableEntry :=
  (t.words.toList.map TableEntry.ofRaw).filter TableEntry.isPresent

theorem length_present_le (t : PageTable) : t.present.length ≤ entriesPerTable := by
  refine Nat.le_trans (List.length_filter_le _ _) (Nat.le_of_eq ?_)
  rw [List.length_map, Vector.length_toList]

end PageTable

structure PageDirectory where
  words : FrameWords

namespace PageDirectory

def zero : PageDirectory := ⟨FrameWords.zero⟩

def get (d : PageDirectory) (i : EntryIndex) : DirectoryEntry :=
  .ofRaw d.words[i]

def set (d : PageDirectory) (i : EntryIndex) (e : DirectoryEntry) : PageDirectory :=
  ⟨d.words.set i.val e.toRaw i.isLt⟩

@[simp] theorem get_zero (i : EntryIndex) : zero.get i = .zero := by
  simp only [zero, get, FrameWords.zero, Fin.getElem_fin, Vector.getElem_replicate]
  decide

theorem get_set (d : PageDirectory) (i j : EntryIndex) (e : DirectoryEntry) :
    (d.set i e).get j = if i = j then e else d.get j := by
  simp only [get, set, Fin.getElem_fin, Vector.getElem_set, Fin.ext_iff]
  split
  · simp
  · rfl

theorem words_eq_of_get {d d' : PageDirectory} (h : ∀ i, d.get i = d'.get i) :
    d.words = d'.words := by
  refine Vector.ext fun i hi => ?_
  have he := congrArg DirectoryEntry.toRaw (h ⟨i, hi⟩)
  simpa only [get, Fin.getElem_fin, DirectoryEntry.toRaw_ofRaw] using he

def present (d : PageDirectory) : List (EntryIndex × Frame) :=
  (List.finRange entriesPerTable).filterMap fun i => (d.get i).table?.map (i, ·)

end PageDirectory
end PagedKernel
