import Mathlib

/-! Paths of a graph whose edges lead forward, and the steps that a path avoids. -/
namespace Manvi.Encoding

/-- A path from the first node to a node, on which no node before it is one of the given ones. -/
inductive Avoids (edge : ℕ → ℕ → Prop) (gen : ℕ → Prop) : ℕ → Prop
  | first : Avoids edge gen 0
  | step {i j : ℕ} (h : Avoids edge gen i) (free : ¬ gen i) (e : edge i j) : Avoids edge gen j

/-- A path from the first node to a node. -/
def Reaches (edge : ℕ → ℕ → Prop) : ℕ → Prop := Avoids edge (fun _ => False)

variable {edge edge' : ℕ → ℕ → Prop} {gen : ℕ → Prop} {i j n : ℕ}

lemma Avoids.mono (h : Avoids edge gen i) (he : ∀ i j, edge i j → edge' i j) :
    Avoids edge' gen i := by
  induction h with
  | first => exact .first
  | step _ free e ih => exact .step ih free (he _ _ e)

lemma Reaches.mono (h : Reaches edge i) (he : ∀ i j, edge i j → edge' i j) : Reaches edge' i :=
    Avoids.mono h he

/-- A path to a later node ends with an edge. -/
lemma avoids_iff (hj : 0 < j) :
    Avoids edge gen j ↔ ∃ i, edge i j ∧ Avoids edge gen i ∧ ¬ gen i := by
  constructor
  · intro h
    cases h with
    | first => omega
    | step h free e => exact ⟨_,e,h,free⟩
  · rintro ⟨i,e,h,free⟩
    exact .step h free e

/-- When every node but the first has an edge to it, all are reached. -/
lemma reaches_all_iff (forward : ∀ i j, edge i j → i < j) :
    (∀ j < n, Reaches edge j) ↔ ∀ j < n, 0 < j → ∃ i, edge i j := by
  constructor
  · intro h j hj hpos
    obtain ⟨i,e,-⟩ := (avoids_iff hpos).mp (h j hj)
    exact ⟨i,e⟩
  · intro h j
    induction j using Nat.strong_induction_on with
    | _ j ih =>
      intro hj
      obtain rfl | hpos := Nat.eq_zero_or_pos j
      · exact .first
      · obtain ⟨i,e⟩ := h j hj hpos
        have hlt := forward i j e
        exact .step (ih i hlt (hlt.trans hj)) not_false e

end Manvi.Encoding
