import Mathlib.Data.List.TakeDrop

/-! The states that a run goes through, act by act. -/
namespace Manvi.Encoding
variable {σ α : Type} {step : σ → α → σ} {start : σ} {acts : List α} {n : ℕ} {a : α}

/-- The state after the first acts of a run. -/
def course (step : σ → α → σ) (start : σ) (acts : List α) (n : ℕ) : σ :=
  (acts.take n).foldl step start

lemma course_succ (h : acts[n]? = some a) :
    course step start acts (n+1) = step (course step start acts n) a := by
  rw [course,List.take_add_one,h,List.foldl_append]
  rfl

lemma course_past (h : acts[n]? = none) :
    course step start acts (n+1) = course step start acts n := by
  rw [course,List.take_add_one,h,Option.toList_none,List.append_nil]
  rfl

end Manvi.Encoding
