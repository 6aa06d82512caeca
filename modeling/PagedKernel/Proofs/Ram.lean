import PagedKernel.Machine.Ram

/-! The contents of frames as a total function. Changing one installed frame
leaves the others alone, and which frames are installed never changes. -/

namespace PagedKernel.Ram

/-- The words of a frame; those of a frame that is not installed read as zero. -/
def words (ram : Ram) (f : Frame) : FrameWords :=
  ram.frames[f.index.val]?.getD .zero

variable {ram : Ram} {f g : Frame}

theorem read_of_installed (h : ram.installed f) : ram.read f = .ok (ram.words f) := by
  have hs : ram.frames[f.index.val]? = some ram.frames[f.index.val] := Array.getElem?_eq_getElem h
  simp only [read, words, hs, Option.getD_some]

theorem table_of_installed (h : ram.installed f) : ram.table f = .ok ⟨ram.words f⟩ := by
  rw [table, read_of_installed h]
  rfl

theorem directory_of_installed (h : ram.installed f) : ram.directory f = .ok ⟨ram.words f⟩ := by
  rw [directory, read_of_installed h]
  rfl

theorem installed_of_read {words : FrameWords} (h : ram.read f = .ok words) : ram.installed f := by
  unfold read at h
  split at h
  · next hs => exact (Array.getElem?_eq_some_iff.mp hs).1
  · cases h

theorem installed_of_table {t : PageTable} (h : ram.table f = .ok t) : ram.installed f := by
  unfold table at h
  cases hr : ram.read f with
  | ok words => exact installed_of_read hr
  | error e =>
    rw [hr] at h
    cases h

theorem installed_of_directory {d : PageDirectory} (h : ram.directory f = .ok d) :
    ram.installed f := by
  unfold directory at h
  cases hr : ram.read f with
  | ok words => exact installed_of_read hr
  | error e =>
    rw [hr] at h
    cases h

theorem check_of_installed (h : ram.installed f) : ram.check f.base = .ok () := by
  rw [check, Frame.base_frame, if_pos h]

theorem check_of_not_installed (h : ¬ ram.installed f) :
    ram.check f.base = .error (ram.missing f.base) := by
  rw [check, Frame.base_frame, if_neg h]

theorem installed_change (change : FrameWords → FrameWords) :
    (ram.change f change).installed g ↔ ram.installed g := by
  simp only [installed, Ram.change, Array.size_modify]

theorem words_change (h : ram.installed f) (change : FrameWords → FrameWords) (g : Frame) :
    (ram.change f change).words g = if g = f then change (ram.words f) else ram.words g := by
  have hs : ram.frames[f.index.val]? = some ram.frames[f.index.val] := Array.getElem?_eq_getElem h
  simp only [words, Ram.change, Array.getElem?_modify]
  by_cases hg : g = f
  · subst hg
    rw [if_pos rfl, if_pos rfl, hs]
    rfl
  · have hi : f.index.val ≠ g.index.val := by
      intro he
      apply hg
      cases f
      cases g
      exact congrArg Frame.mk (Fin.ext he.symm)
    rw [if_neg hi, if_neg hg]

theorem byte_eq_ok_iff {pa : PhysicalAddress} {b : UInt8} :
    ram.byte pa = .ok b ↔
      ram.installed pa.frame ∧ (ram.words pa.frame).byte pa.offset.toNat = b := by
  simp only [byte, check, Bind.bind, Except.bind]
  by_cases h : ram.installed pa.frame
  · simp [h, read_of_installed, pure, Except.pure]
  · simp [h]

end PagedKernel.Ram
