import Mathlib

/-! Entries by key: later ones replace earlier ones, and the order in which they come in does not
show. -/
namespace Manvi.Encoding
variable {κ ν : Type} [LinearOrder κ]

/-- Put an entry into entries in ascending order of their keys. -/
def insertKey (e : κ × ν) : List (κ × ν) → List (κ × ν)
  | [] => [e]
  | d :: es => if e.1 < d.1 then e :: d :: es else if e.1 = d.1 then
    e :: es else d :: insertKey e es

/-- Entries in ascending order of their keys, the last of each key. -/
def keyed (es : List (κ × ν)) : List (κ × ν) := es.foldl (fun m e => insertKey e m) []

/-- Keys in ascending order. -/
def Ascending (es : List (κ × ν)) : Prop := es.Pairwise (fun a b => a.1 < b.1)

section keyed
variable {e d : κ × ν} {es ds : List (κ × ν)}

lemma Ascending.nodup (h : Ascending es) : (es.map Prod.fst).Nodup :=
  (List.pairwise_map.mpr (h.imp (fun hlt => ne_of_lt hlt)))

lemma mem_insertKey_of_not_mem (he : e.1 ∉ es.map Prod.fst) :
    d ∈ insertKey e es ↔ d = e ∨ d ∈ es := by
  induction es with
  | nil => simp [insertKey]
  | cons a es ih =>
    have hne : e.1 ≠ a.1 := fun h => he (by simp [h])
    have hrest : e.1 ∉ es.map Prod.fst := fun h => he (by simp [h])
    rw [insertKey,if_neg hne]
    split_ifs with hlt
    · simp
    · rw [List.mem_cons,ih hrest,List.mem_cons]
      tauto

lemma mem_of_mem_insertKey (h : d ∈ insertKey e es) : d = e ∨ d ∈ es := by
  induction es with
  | nil => exact .inl (by simpa [insertKey] using h)
  | cons a es ih =>
    rw [insertKey] at h
    split_ifs at h with hlt heq
    · exact List.mem_cons.mp h
    · obtain h | h := List.mem_cons.mp h
      · exact .inl h
      · exact .inr (List.mem_cons_of_mem _ h)
    · obtain h | h := List.mem_cons.mp h
      · exact .inr (h ▸ List.mem_cons_self)
      · obtain h | h := ih h
        · exact .inl h
        · exact .inr (List.mem_cons_of_mem _ h)

lemma ascending_insertKey (h : Ascending es) : Ascending (insertKey e es) := by
  induction es with
  | nil => exact List.pairwise_singleton _ _
  | cons a es ih =>
    obtain ⟨ha,hes⟩ := List.pairwise_cons.mp h
    rw [insertKey]
    split_ifs with hlt heq
    · refine List.pairwise_cons.mpr ⟨?_,h⟩
      intro b hb
      obtain rfl | hb := List.mem_cons.mp hb
      · exact hlt
      · exact hlt.trans (ha b hb)
    · exact List.pairwise_cons.mpr ⟨fun b hb => heq ▸ ha b hb,hes⟩
    · refine List.pairwise_cons.mpr ⟨?_,ih hes⟩
      intro b hb
      obtain rfl | hb := mem_of_mem_insertKey hb
      · exact lt_of_le_of_ne (not_lt.mp hlt) (Ne.symm heq)
      · exact ha b hb

@[simp] lemma keyed_snoc (es : List (κ × ν)) (e : κ × ν) :
    keyed (es ++ [e]) = insertKey e (keyed es) := by
  rw [keyed,List.foldl_append]
  rfl

lemma ascending_keyed (es : List (κ × ν)) : Ascending (keyed es) := by
  induction es using List.reverseRecOn with
  | nil => exact List.Pairwise.nil
  | append_singleton es e ih =>
    rw [keyed_snoc]
    exact ascending_insertKey ih

lemma mem_of_mem_keyed (h : d ∈ keyed es) : d ∈ es := by
  induction es using List.reverseRecOn with
  | nil => exact h
  | append_singleton es e ih =>
    rw [keyed_snoc] at h
    obtain rfl | h := mem_of_mem_insertKey h
    · simp
    · exact List.mem_append_left _ (ih h)

/-- With keys of their own, all entries are there. -/
lemma mem_keyed (hn : (es.map Prod.fst).Nodup) : d ∈ keyed es ↔ d ∈ es := by
  induction es using List.reverseRecOn with
  | nil => rfl
  | append_singleton es e ih =>
    rw [List.map_append,List.map_singleton] at hn
    have hes := (List.nodup_append.mp hn).1
    have hnot : e.1 ∉ es.map Prod.fst := by
      intro hmem
      exact (List.nodup_append.mp hn).2.2 e.1 hmem e.1 (by simp) rfl
    have hkeys : e.1 ∉ (keyed es).map Prod.fst := by
      intro hmem
      obtain ⟨a,ha,hae⟩ := List.mem_map.mp hmem
      exact hnot (List.mem_map.mpr ⟨a,mem_of_mem_keyed ha,hae⟩)
    rw [keyed_snoc,mem_insertKey_of_not_mem hkeys,ih hes,List.mem_append,List.mem_singleton,or_comm]

/-- Entries in order are the same when they have the same members. -/
lemma Ascending.ext (h : Ascending es) (h' : Ascending ds) (hmem : ∀ a, a ∈ es ↔ a ∈ ds) :
    es = ds := by
  have hperm : es.Perm ds :=
    (List.perm_ext_iff_of_nodup (List.Nodup.of_map _ h.nodup)
    (List.Nodup.of_map _ h'.nodup)).mpr hmem
  refine hperm.eq_of_pairwise ?_ h h'
  intro a b _ _ hab hba
  exact (lt_asymm hab hba).elim

/-- The order of entries with keys of their own does not show. -/
theorem keyed_perm (hn : (es.map Prod.fst).Nodup) (h : es.Perm ds) : keyed ds = keyed es := by
  refine (ascending_keyed ds).ext (ascending_keyed es) (fun a => ?_)
  rw [mem_keyed hn,mem_keyed ((h.map Prod.fst).nodup_iff.mp hn)]
  exact h.mem_iff.symm

end keyed
end Manvi.Encoding
