import Mathlib

/-! Replacing every copy of a word in a sequence, from the left, and which copies are taken. -/
namespace Manvi.Encoding
variable {α β : Type} [DecidableEq β]

/-- Replace the copies of a word from the left; letters are compared by a key. -/
def replaceFrom (key : α → β) (word : List β) (new : List α) : ℕ → List α → List α
  | 0,text => text
  | _+1,[] => []
  | fuel+1,a :: text =>
    if word <+: (a :: text).map key then new ++
      replaceFrom key word new fuel ((a :: text).drop word.length)
    else a :: replaceFrom key word new fuel text

def replaceAll (key : α → β) (word : List β) (new text : List α) : List α :=
  replaceFrom key word new text.length text

/-- Of the places where a word of some length stands, one is taken when none that is taken further
left reaches it. -/
def Takes (stands : ℕ → Prop) (n k : ℕ) : Prop :=
  stands k ∧ ∀ k' < k, k < k'+n → ¬ Takes stands n k'
termination_by k

section takes
variable {stands : ℕ → Prop} {n c k : ℕ}

lemma takes_iff : Takes stands n k ↔ stands k ∧ ∀ k' < k, k < k'+n → ¬ Takes stands n k' := by
  rw [Takes]

/-- No place that is taken reaches further than this one. -/
def Arrives (stands : ℕ → Prop) (n c : ℕ) : Prop := ∀ k < c, c < k+n → ¬ Takes stands n k

lemma Arrives.next (h : Arrives stands n c) (hc : ¬ stands c) : Arrives stands n (c+1) := by
  intro k hk hlt htakes
  obtain hk | rfl := Nat.lt_succ_iff_lt_or_eq.mp hk
  · exact h k hk (by omega) htakes
  · exact hc (takes_iff.mp htakes).1

lemma Arrives.takes (h : Arrives stands n c) (hc : stands c) : Takes stands n c :=
    takes_iff.mpr ⟨hc,h⟩

lemma Arrives.jump (h : Arrives stands n c) (hc : stands c) : Arrives stands n (c+n) := by
  intro k hk hlt htakes
  exact (takes_iff.mp htakes).2 c (by omega) hk (h.takes hc)

end takes

section replaced
variable {key : α → β} {word : List β} {new text : List α} {fuel : ℕ}

/-- The keys of what is left do not depend on the letters. -/
lemma map_replaceFrom : (replaceFrom key word new fuel text).map key =
    replaceFrom id word (new.map key) fuel (text.map key) := by
  induction fuel generalizing text with
  | zero => rfl
  | succ fuel ih =>
    cases text with
    | nil => rfl
    | cons a rest =>
      rw [List.map_cons,replaceFrom,replaceFrom,List.map_id,List.map_cons]
      by_cases hpre : word <+: key a :: rest.map key
      · rw [if_pos hpre,if_pos hpre,List.map_append,ih,List.map_drop,List.map_cons]
      · rw [if_neg hpre,if_neg hpre,List.map_cons,ih]

theorem map_replaceAll : (replaceAll key word new text).map key = replaceAll id word (new.map key)
    (text.map key) := by
  rw [replaceAll,replaceAll,map_replaceFrom,List.length_map]

end replaced
end Manvi.Encoding
