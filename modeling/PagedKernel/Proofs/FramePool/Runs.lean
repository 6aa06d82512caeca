import PagedKernel.Proofs.FramePool

/-! Runs of a pool: requests in any order, for any frames. A seeded pool manages the frames
below the end of the identity window, but it takes any frame that is given back. -/

namespace PagedKernel.FramePool

inductive Request where
  | take
  | giveBack (f : Frame)
  | reserve (f : Frame)

def serve (pool : FramePool) : Request → FramePool
  | .take => pool.alloc.2
  | .giveBack f => (pool.free f).2
  | .reserve f => (pool.reserve f).2

def serveAll (pool : FramePool) (qs : List Request) : FramePool :=
  qs.foldl serve pool

/-- The identity window reaches the frame. -/
def InReach (f : Frame) : Prop :=
  f.index.val < MemoryLayout.kernelWindowPages

instance : DecidablePred InReach :=
  fun f => inferInstanceAs (Decidable (f.index.val < MemoryLayout.kernelWindowPages))

/-- All along a run, frames that are available or handed out are in reach. -/
structure KeepsToWindow (pool : FramePool) (qs : List Request) : Prop where
  available : ∀ served, served <+: qs → ∀ f,
    (pool.serveAll served).isAvailable f = true → InReach f
  handedOut : ∀ served, served ++ [.take] <+: qs → ∀ f,
    (pool.serveAll served).alloc.1 = some f → InReach f

/-- Frames out of reach can neither be given back nor reserved, and trying changes nothing. -/
def RefusesOthers (pool : FramePool) : Prop :=
  ∀ f, ¬ InReach f → pool.free f = (.error (.outOfRange f), pool) ∧
    pool.reserve f = (.error (.outOfRange f), pool)

variable {pool : FramePool} {qs : List Request} {q : Request} {f : Frame}

theorem serve_sound (hs : pool.Sound) (q : Request) : (pool.serve q).Sound := by
  cases q with
  | take => exact alloc_sound hs
  | giveBack f =>
    cases hf : pool.isAvailable f with
    | false => exact (free_of_taken hs hf).2.1
    | true =>
      rw [serve, free_of_available hs hf]
      exact hs
  | reserve f => exact (reserve_sound hs f).2.1

theorem serveAll_sound (hs : pool.Sound) (qs : List Request) : (pool.serveAll qs).Sound := by
  induction qs generalizing pool with
  | nil => exact hs
  | cons q qs ih => exact ih (serve_sound hs q)

theorem serveAll_concat (pool : FramePool) (qs : List Request) (q : Request) :
    pool.serveAll (qs ++ [q]) = (pool.serveAll qs).serve q := by
  rw [serveAll, List.foldl_append]
  rfl

theorem isAvailable_of_serve (hs : pool.Sound) (h : (pool.serve q).isAvailable f = true) :
    pool.isAvailable f = true ∨ q = .giveBack f := by
  cases q with
  | take =>
    cases ha : pool.alloc.1 with
    | none =>
      rw [serve, (alloc_eq_none ha).1] at h
      exact .inl h
    | some g => exact .inl (((alloc_eq_some ha).2.1 f).mp h).1
  | giveBack g =>
    cases hg : pool.isAvailable g with
    | false =>
      rcases ((free_of_taken hs hg).2.2 f).mp h with hf | rfl
      · exact .inl hf
      · exact .inr rfl
    | true =>
      rw [serve, free_of_available hs hg] at h
      exact .inl h
  | reserve g => exact .inl (((reserve_sound hs g).2.2 f).mp h).1

theorem isAvailable_of_serveAll (hs : pool.Sound) (h : (pool.serveAll qs).isAvailable f = true) :
    pool.isAvailable f = true ∨ .giveBack f ∈ qs := by
  induction qs generalizing pool with
  | nil => exact .inl h
  | cons q qs ih =>
    rcases ih (serve_sound hs q) h with hserved | hlater
    · rcases isAvailable_of_serve hs hserved with hf | rfl
      · exact .inl hf
      · exact .inr List.mem_cons_self
    · exact .inr (List.mem_cons_of_mem _ hlater)

theorem inReach_of_seeded {map : BootMap} {reservedEnd : PhysicalAddress}
    (h : (Seeding.ofBootMap map reservedEnd).pool.isAvailable f = true) : InReach f := by
  obtain ⟨r, -, -, hstop⟩ := (Seeding.isAvailable_ofBootMap map reservedEnd f).mp h
  exact Nat.lt_of_lt_of_le hstop (Nat.min_le_right _ _)

theorem KeepsToWindow.notMem (h : KeepsToWindow pool qs) (hs : pool.Sound) (hf : ¬ InReach f) :
    .giveBack f ∉ qs := by
  intro hmem
  obtain ⟨before, after, rfl⟩ := List.append_of_mem hmem
  have hbefore : (pool.serveAll before).isAvailable f = false := by
    rw [Bool.eq_false_iff]
    exact fun ha => hf (h.available before (List.prefix_append ..) f ha)
  obtain ⟨-, -, hgiven⟩ := free_of_taken (serveAll_sound hs before) hbefore
  have hserved : before ++ [.giveBack f] <+: before ++ .giveBack f :: after :=
    ⟨after, (List.append_cons ..).symm⟩
  refine hf (h.available _ hserved f ?_)
  rw [serveAll_concat]
  exact (hgiven f).mpr (.inr rfl)

theorem keepsToWindow_of_notMem (hs : pool.Sound)
    (hpool : ∀ f, pool.isAvailable f = true → InReach f)
    (h : ∀ f, ¬ InReach f → .giveBack f ∉ qs) : KeepsToWindow pool qs := by
  have hkeeps : ∀ served, served <+: qs → ∀ f,
      (pool.serveAll served).isAvailable f = true → InReach f := by
    intro served hserved f ha
    rcases isAvailable_of_serveAll hs ha with hfirst | hgiven
    · exact hpool f hfirst
    · exact Classical.byContradiction fun hf => h f hf (hserved.subset hgiven)
  refine ⟨hkeeps, fun served hserved f ha => ?_⟩
  exact hkeeps served ((List.prefix_append ..).trans hserved) f (alloc_eq_some ha).1

/-- What a seeded pool does with frames out of reach. It keeps to the window exactly as long
as none of them is given back: reserving any frame is answered, and so is giving back any
frame in use, which is available from then on. -/
theorem keepsToWindow_iff (map : BootMap) (reservedEnd : PhysicalAddress) (qs : List Request) :
    (KeepsToWindow (Seeding.ofBootMap map reservedEnd).pool qs ↔
      ∀ f, ¬ InReach f → .giveBack f ∉ qs) ∧
    ∀ f, let pool := (Seeding.ofBootMap map reservedEnd).pool.serveAll qs
      (pool.isAvailable f = true → pool.free f = (.error (.doubleFree f), pool)) ∧
      (pool.isAvailable f = false → (pool.free f).1 = .ok () ∧
        ∀ g, (pool.free f).2.isAvailable g = true ↔ pool.isAvailable g = true ∨ g = f) ∧
      (pool.reserve f).1 = .ok () ∧
        ∀ g, (pool.reserve f).2.isAvailable g = true ↔ pool.isAvailable g = true ∧ g ≠ f := by
  have hs := ofBootMap_sound map reservedEnd
  have hsound := serveAll_sound hs qs
  refine ⟨⟨fun h f hf => h.notMem hs hf, keepsToWindow_of_notMem hs fun _ => inReach_of_seeded⟩,
    fun f => ⟨free_of_available hsound, fun hf => ?_, ?_⟩⟩
  · obtain ⟨hok, -, havailable⟩ := free_of_taken hsound hf
    exact ⟨hok, havailable⟩
  · obtain ⟨hok, -, havailable⟩ := reserve_sound hsound f
    exact ⟨hok, havailable⟩

def twoFrames : BootMap :=
  [⟨4096, 8192, .usable⟩]

def firstOutOfReach : Frame :=
  ⟨⟨65536, by decide⟩⟩

/-- A pool of two frames takes a frame out of reach, and does not keep to the window then. -/
theorem not_keepsToWindow_strayFrame :
    ¬ KeepsToWindow (Seeding.ofBootMap twoFrames (.ofBits 0)).pool [.giveBack firstOutOfReach] ∧
      ¬ RefusesOthers (Seeding.ofBootMap twoFrames (.ofBits 0)).pool := by
  have hs := ofBootMap_sound twoFrames (.ofBits 0)
  have hout : ¬ InReach firstOutOfReach := by decide
  refine ⟨fun h => h.notMem hs hout (List.mem_singleton_self _), fun h => ?_⟩
  have hanswer : Except.ok () = Except.error (FrameError.outOfRange firstOutOfReach) :=
    (reserve_sound hs firstOutOfReach).1.symm.trans (congrArg Prod.fst (h _ hout).2)
  cases hanswer

end PagedKernel.FramePool
