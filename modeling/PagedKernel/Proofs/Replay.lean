/-! Series of questions. A machine with a plainer one beside it, which knows no more than a
view of its state, gives the same answers to every series of questions, if it does so for one
question and the view keeps pace. -/

namespace PagedKernel

variable {σ τ ι α : Type}

def replay (ask : σ → ι → α × σ) (s : σ) : List ι → List α × σ
  | [] => ([], s)
  | i :: is =>
    let later := replay ask (ask s i).2 is
    ((ask s i).1 :: later.1, later.2)

/-- A plainer machine foretells what one question does to a machine in order. -/
structure Foretold (ask : σ → ι → α × σ) (plain : τ → ι → α × τ) (view : σ → τ)
    (inOrder : σ → Prop) : Prop where
  keeps : ∀ s i, inOrder s → inOrder (ask s i).2
  answer : ∀ s i, inOrder s → (ask s i).1 = (plain (view s) i).1
  pace : ∀ s i, inOrder s → view (ask s i).2 = (plain (view s) i).2

variable {ask : σ → ι → α × σ} {plain : τ → ι → α × τ} {view : σ → τ} {inOrder : σ → Prop}

theorem Foretold.throughout (h : Foretold ask plain view inOrder) {s : σ} (hs : inOrder s)
    (is : List ι) :
    inOrder (replay ask s is).2 ∧ (replay ask s is).1 = (replay plain (view s) is).1 ∧
      view (replay ask s is).2 = (replay plain (view s) is).2 := by
  induction is generalizing s with
  | nil => exact ⟨hs, rfl, rfl⟩
  | cons i is ih =>
    obtain ⟨horder, hanswers, hview⟩ := ih (h.keeps s i hs)
    rw [h.pace s i hs] at hanswers hview
    exact ⟨horder, by simp only [replay, h.answer s i hs, hanswers], hview⟩

end PagedKernel
