import PagedKernel.Kernel.Syscall
import PagedKernel.Proofs.Kernel.Memory
import PagedKernel.Proofs.Kernel.Reads

/-! The invariant of the kernel between two calls, and how the parts of the kernel
that a call runs on fit back into it. A call for a process spares the other ones; the
calls that are for no process shelter them all. -/

namespace PagedKernel.Kernel

variable {k k' k'' : Kernel} {p : Process} {pid other : ProcessId} {f : Process → Process}
  {managed : Frame → Prop} {gap : Prop} {w : Mmu}

def users (k : Kernel) (pid : ProcessId) : Option AddressSpace :=
  (k.process? pid).map (·.space)

def mmu (k : Kernel) : Mmu :=
  ⟨k.machine, k.space⟩

structure Inv (managed : Frame → Prop) (gap : Prop) (k : Kernel) : Prop where
  steady : Steady managed gap k.mmu k.users k.slots k.queue.entries
  /-- Process numbers are unique, and never used again. -/
  pids : (k.processes.map (·.pid)).Nodup
  below : ∀ p ∈ k.processes, p.pid.number < k.nextPid

structure Spares (pid : ProcessId) (k k' : Kernel) : Prop where
  process : ∀ other, other ≠ pid → k'.process? other = k.process? other
  queued : ∀ other, other ≠ pid → k'.queue.entries.filter (fun e => e.pid = other) =
    k.queue.entries.filter (fun e => e.pid = other)
  untouched : ∀ other u, other ≠ pid → k.users other = some u →
    Untouched k.machine k'.machine u

structure Shelters (k k' : Kernel) : Prop where
  users : ∀ pid u, k.users pid = some u → k'.users pid = some u
  untouched : ∀ pid u, k.users pid = some u → Untouched k.machine k'.machine u

theorem Spares.refl (pid : ProcessId) (k : Kernel) : Spares pid k k :=
  ⟨fun _ _ => rfl, fun _ _ => rfl, fun _ u _ _ => .refl k.machine u⟩

theorem Shelters.refl (k : Kernel) : Shelters k k :=
  ⟨fun _ _ => id, fun _ u _ => .refl k.machine u⟩

theorem mem_of_process? (h : k.process? pid = some p) : p ∈ k.processes ∧ p.pid = pid :=
  ⟨List.mem_of_find?_eq_some h, by simpa using List.find?_some h⟩

theorem users_of_process? (h : k.process? pid = some p) : k.users pid = some p.space := by
  rw [users, h, Option.map_some]

theorem users_eq_some {u : AddressSpace} (h : k.users pid = some u) :
    ∃ p, k.process? pid = some p ∧ p.space = u :=
  Option.map_eq_some_iff.mp h

theorem process?_of_mem (hn : (k.processes.map (·.pid)).Nodup) (h : p ∈ k.processes) :
    k.process? p.pid = some p := by
  rw [process?]
  obtain ⟨before, after, hl⟩ := List.append_of_mem h
  rw [hl] at hn ⊢
  rw [List.find?_append]
  have hnone : before.find? (fun q => decide (q.pid = p.pid)) = none := by
    rw [List.find?_eq_none]
    intro q hq
    rw [List.map_append, List.map_cons, List.nodup_append] at hn
    simpa using hn.2.2 q.pid (List.mem_map_of_mem hq) p.pid (by simp)
  rw [hnone]
  simp

/-! Changing one process -/

theorem process?_changeProcess (hf : ∀ q : Process, (f q).pid = q.pid) :
    (k.changeProcess pid f).process? other =
      (k.process? other).map fun q => if other = pid then f q else q := by
  have hsame : (fun q : Process => decide (q.pid = other)) ∘
      (fun q => if q.pid = pid then f q else q) = fun q => decide (q.pid = other) := by
    funext q
    simp only [Function.comp_apply]
    split
    · rw [hf]
    · rfl
  simp only [process?, changeProcess, List.find?_map, hsame]
  cases hq : k.processes.find? (fun q => decide (q.pid = other)) with
  | none => rfl
  | some q =>
    have hpid : q.pid = other := by simpa using List.find?_some hq
    simp only [Option.map_some, hpid]

theorem process?_changeProcess_of_ne (hf : ∀ q : Process, (f q).pid = q.pid) (hne : other ≠ pid) :
    (k.changeProcess pid f).process? other = k.process? other := by
  rw [process?_changeProcess hf]
  simp only [if_neg hne, Option.map_id']

theorem pids_changeProcess (hf : ∀ q : Process, (f q).pid = q.pid) :
    (k.changeProcess pid f).processes.map (·.pid) = k.processes.map (·.pid) := by
  rw [changeProcess, List.map_map]
  refine List.map_congr_left fun q _ => ?_
  rw [Function.comp_apply]
  split
  · rw [hf]
  · rfl

theorem Inv.steps (h : Inv managed gap k)
    (hs : Steady managed gap k'.mmu k'.users k'.slots k'.queue.entries)
    (hp : k'.processes.map (·.pid) = k.processes.map (·.pid)) (hn : k'.nextPid = k.nextPid) :
    Inv managed gap k' := by
  refine ⟨hs, hp ▸ h.pids, ?_⟩
  intro q hq
  have hmem := List.mem_map_of_mem (f := (·.pid)) hq
  rw [hp] at hmem
  obtain ⟨q', hq', he⟩ := List.mem_map.mp hmem
  rw [hn, ← he]
  exact h.below q' hq'

theorem users_changeProcess (hf : ∀ q : Process, (f q).pid = q.pid)
    (hs : ∀ q : Process, (f q).space = q.space) : (k.changeProcess pid f).users = k.users := by
  funext other
  rw [users, users, process?_changeProcess hf, Option.map_map]
  congr 1
  funext q
  rw [Function.comp_apply]
  split
  · rw [hs]
  · rfl

theorem Inv.changeProcess (h : Inv managed gap k) (hf : ∀ q : Process, (f q).pid = q.pid)
    (hs : ∀ q : Process, (f q).space = q.space) : Inv managed gap (k.changeProcess pid f) := by
  refine h.steps ?_ (pids_changeProcess hf) rfl
  rw [users_changeProcess hf hs]
  exact h.steady

/-! Parts of the kernel put back -/

def withMmu (k : Kernel) (w : Mmu) : Kernel :=
  { k with machine := w.machine, space := w.space }

def withUser (k : Kernel) (p : Process) (w : Mmu) : Kernel :=
  { k.changeProcess p.pid (fun q => { q with space := w.space }) with machine := w.machine }

theorem process?_withUser : (k.withUser p w).process? other =
    (k.process? other).map fun q => if other = p.pid then { q with space := w.space } else q :=
  process?_changeProcess fun _ => rfl

theorem users_withUser (hp : k.process? pid = some p) :
    (k.withUser p w).users = Function.update k.users pid (some w.space) := by
  obtain ⟨-, rfl⟩ := mem_of_process? hp
  funext other
  rw [users, process?_withUser]
  by_cases he : other = p.pid
  · subst he
    rw [Function.update_self, hp]
    simp
  · rw [Function.update_of_ne he, users]
    simp only [if_neg he, Option.map_id']

theorem Inv.withUser (h : Inv managed gap k) (hp : k.process? pid = some p)
    (hs : Spared managed gap k.users k.mmu k.slots k.queue.entries pid w.machine (some w.space)) :
    Inv managed gap (k.withUser p w) ∧ Spares pid k (k.withUser p w) := by
  refine ⟨h.steps ?_ (pids_changeProcess fun _ => rfl) rfl, ?_, fun _ _ => rfl, hs.others⟩
  · rw [users_withUser hp]
    exact hs.steady
  · intro other hne
    obtain ⟨-, rfl⟩ := mem_of_process? hp
    exact process?_changeProcess_of_ne (fun _ => rfl) hne

theorem Inv.withMmu (h : Inv managed gap k)
    (hs : Serving managed gap k.users k.machine w k.slots k.queue.entries) :
    Inv managed gap (k.withMmu w) ∧ Shelters k (k.withMmu w) ∧ ∀ pid, Spares pid k (k.withMmu w) :=
  ⟨h.steps hs.1 rfl rfl, ⟨fun _ _ => id, hs.2⟩,
    fun _ => ⟨fun _ _ => rfl, fun _ _ => rfl, fun other u _ => hs.2 other u⟩⟩

/-! Processes that come and go -/

theorem process?_none_of_le (h : Inv managed gap k) (hn : k.nextPid ≤ pid.number) :
    k.process? pid = none := by
  cases hp : k.process? pid with
  | none => rfl
  | some p =>
    obtain ⟨hmem, rfl⟩ := mem_of_process? hp
    have := h.below p hmem
    omega

end PagedKernel.Kernel
