import Manvi.Encoding.Markers

/-! Cutting every copy of a span out of a sequence, from the left. -/
namespace Manvi.Encoding
variable {α : Type} [DecidableEq α]

/-- Whether a tag occurs. -/
def contains (data tag : List α) : Bool := (index data tag).isSome

section infixes
variable {data tag : List α} {i : ℕ}

lemma index_eq_none_iff : index data tag = none ↔ ¬ tag <:+: data := by
  induction data with
  | nil =>
    unfold index
    by_cases h : tag.isPrefixOf [] = true
    · rw [if_pos h]
      rw [List.isPrefixOf_iff_prefix,List.prefix_nil] at h
      simp [h]
    · rw [if_neg h]
      rw [List.isPrefixOf_iff_prefix,List.prefix_nil] at h
      simp [h]
  | cons x xs ih =>
    by_cases h : tag <+: x :: xs
    · rw [index_cons_of_begins h]
      simp [h.isInfix]
    · rw [index_cons_of_not_begins h,Option.map_eq_none_iff,ih,List.infix_cons_iff]
      simp [h]

/-- The index splits the sequence at an occurrence. -/
lemma split_of_index (h : index data tag = some i) :
    data = data.take i ++ tag ++ data.drop (i+tag.length) := by
  induction data generalizing i with
  | nil =>
    unfold index at h
    split_ifs at h with hp
    rw [List.isPrefixOf_iff_prefix,List.prefix_nil] at hp
    simp [hp]
  | cons x xs ih =>
    by_cases hp : tag <+: x :: xs
    · rw [index_cons_of_begins hp] at h
      cases h
      obtain ⟨rest,hrest⟩ := hp
      rw [← hrest]
      simp
    · rw [index_cons_of_not_begins hp] at h
      obtain ⟨j,hj,hi⟩ := Option.map_eq_some_iff.mp h
      subst hi
      have hsplit := ih hj
      rw [List.take_succ_cons,show j+1+tag.length = (j+tag.length)+1 by omega,List.drop_succ_cons]
      rw [List.cons_append,List.cons_append,← hsplit]

@[simp] lemma contains_iff : contains data tag = true ↔ tag <:+: data := by
  rw [contains,Option.isSome_iff_ne_none,ne_eq,index_eq_none_iff,not_not]

omit [DecidableEq α] in
/-- A word without some letter occurs before or behind that letter, at the same place. -/
lemma append_eq_append_cons {c : α} {x y a b : List α} (hc : c ∉ tag)
    (h : x ++ tag ++ y = a ++ c :: b) :
    (∃ z, a = x ++ tag ++ z) ∨ ∃ z, b = z ++ tag ++ y ∧ x = a ++ c :: z := by
  rw [List.append_eq_append_iff] at h
  cases h with
  | inl h =>
    obtain ⟨z,ha,hy⟩ := h
    exact .inl ⟨z,ha⟩
  | inr h =>
    obtain ⟨z,hxt,hcb⟩ := h
    rw [List.append_eq_append_iff] at hxt
    cases hxt with
    | inl hxt =>
      obtain ⟨u,ha,htag⟩ := hxt
      cases z with
      | nil =>
        rw [List.append_nil] at htag
        exact .inl ⟨[],by rw [ha,htag,List.append_nil]⟩
      | cons z zs =>
        have hz := (List.cons.inj hcb).1
        rw [htag] at hc
        exact absurd (List.mem_append_right u (List.mem_cons.mpr (.inl hz))) hc
    | inr hxt =>
      obtain ⟨u,hx,hz⟩ := hxt
      cases u with
      | nil =>
        rw [List.nil_append] at hz
        rw [List.append_nil] at hx
        cases z with
        | nil => exact .inl ⟨[],by rw [hx,← hz,List.append_nil,List.append_nil]⟩
        | cons z zs =>
          have hzc := (List.cons.inj hcb).1
          rw [← hz] at hc
          exact absurd (List.mem_cons.mpr (.inl hzc)) hc
      | cons v vs =>
        rw [hz,List.cons_append,List.cons_append] at hcb
        obtain ⟨hv,hb⟩ := List.cons.inj hcb
        exact .inr ⟨vs,hb,by rw [hx,hv]⟩

omit [DecidableEq α] in
/-- A word without some letter occurs on one side of that letter. -/
lemma infix_append_cons {c : α} {a b : List α} (hc : c ∉ tag) (h : tag <:+: a ++ c :: b) :
    tag <:+: a ∨ tag <:+: b := by
  obtain ⟨x,y,hxy⟩ := h
  cases append_eq_append_cons hc hxy with
  | inl h =>
    obtain ⟨z,ha⟩ := h
    exact .inl ⟨x,z,ha.symm⟩
  | inr h =>
    obtain ⟨z,hb,_⟩ := h
    exact .inr ⟨z,y,hb.symm⟩

end infixes

/-- What is left of some content when a number of copies of a span is taken out. -/
inductive Cut (span : List α) : List α → List α → ℕ → Prop
  | none (content : List α) : Cut span content content 0
  | copy (before : List α) {rest left : List α} {n : ℕ} (h : Cut span rest left n) :
      Cut span (before ++ span ++ rest) (before ++ left) (n+1)

/-- What is left of some content when each copy of a span is taken out, the leftmost first. -/
inductive Stripped (span : List α) : List α → List α → Prop
  | free {content : List α} (h : ¬ span <:+: content) : Stripped span content content
  | copy {before rest left : List α} (hfirst : ¬ span <:+: (before ++ span).dropLast)
      (h : Stripped span rest left) :
      Stripped span (before ++ span ++ rest) (before ++ left)

/-- Take every copy of a span out, the leftmost first, and count them. -/
def strip (span : List α) : ℕ → List α → List α × ℕ
  | 0,content => (content,0)
  | fuel+1,content => match index content span with
    | none => (content,0)
    | some i =>
      let rest := strip span fuel (content.drop (i+span.length))
      (content.take i ++ rest.1,rest.2+1)

omit [DecidableEq α] in
/-- Of two copies at different places, the earlier one is found before the later one ends. -/
lemma infix_of_earlier {span before before' rest rest' : List α}
    (h : before ++ span ++ rest = before' ++ span ++ rest') (hlt : before.length < before'.length) :
    span <:+: (before' ++ span).dropLast := by
  have hpre : before ++ span <+: before' ++ span ++ rest' := ⟨rest,h⟩
  have hle : (before ++ span).length ≤ (before' ++ span).dropLast.length := by
    simp only [List.length_dropLast,List.length_append]
    omega
  have hdrop : (before' ++ span).dropLast <+: before' ++ span ++ rest' :=
    (List.dropLast_prefix _).trans (List.prefix_append _ _)
  exact (List.suffix_append before span).isInfix.trans
    (List.prefix_of_prefix_length_le hpre hdrop hle).isInfix

omit [DecidableEq α] in
lemma Stripped.unique {span content left left' : List α} (h : Stripped span content left)
    (h' : Stripped span content left') : left = left' := by
  induction h generalizing left' with
  | free hfree =>
    cases h' with
    | free => rfl
    | @copy before =>
      exact absurd ((List.suffix_append before span).isInfix.trans
        (List.prefix_append _ _).isInfix) hfree
  | @copy before rest left hfirst h ih =>
    generalize hc : before ++ span ++ rest = content at h'
    cases h' with
    | free hfree =>
      rw [← hc] at hfree
      exact absurd ((List.suffix_append before span).isInfix.trans
        (List.prefix_append _ _).isInfix) hfree
    | @copy before' rest' left' hfirst' h' =>
      have hlen : before.length = before'.length := by
        apply Nat.le_antisymm
        · by_contra hlt
          exact hfirst (infix_of_earlier hc.symm (not_le.mp hlt))
        · by_contra hlt
          exact hfirst' (infix_of_earlier hc (not_le.mp hlt))
      rw [List.append_assoc,List.append_assoc] at hc
      obtain ⟨hb,hr⟩ := List.append_inj hc hlen
      rw [hb,ih (List.append_cancel_left hr ▸ h')]

section strip
variable {span : List α}

lemma strip_cut (span : List α) (fuel : ℕ) (content : List α) :
    Cut span content (strip span fuel content).1 (strip span fuel content).2 := by
  induction fuel generalizing content with
  | zero => exact .none content
  | succ fuel ih =>
    rw [strip]
    cases hi : index content span with
    | none => exact .none content
    | some i =>
      have hcopy := Cut.copy (content.take i) (ih (content.drop (i+span.length)))
      rw [← split_of_index hi] at hcopy
      exact hcopy

/-- Nothing is left before the leftmost copy. -/
lemma first_of_index {data tag : List α} {i : ℕ} (hne : tag ≠ []) (h : index data tag = some i) :
    ¬ tag <:+: (data.take i ++ tag).dropLast := by
  induction data generalizing i with
  | nil =>
    unfold index at h
    split_ifs at h with hp
    rw [List.isPrefixOf_iff_prefix,List.prefix_nil] at hp
    exact absurd hp hne
  | cons x xs ih =>
    by_cases hp : tag <+: x :: xs
    · rw [index_cons_of_begins hp] at h
      cases h
      intro hin
      have hlen := hin.length_le
      have hpos := List.length_pos_iff.mpr hne
      rw [List.take_zero,List.nil_append,List.length_dropLast] at hlen
      omega
    · rw [index_cons_of_not_begins hp] at h
      obtain ⟨j,hj,hi⟩ := Option.map_eq_some_iff.mp h
      subst hi
      rw [List.take_succ_cons,List.cons_append,List.dropLast_cons_of_ne_nil (by simp [hne]),
        List.infix_cons_iff]
      intro hor
      cases hor with
      | inr hin => exact ih hj hin
      | inl hpre =>
        apply hp
        have hsplit := split_of_index hj
        have htrans : x :: (xs.take j ++ tag).dropLast <+: x :: xs := by
          rw [List.cons_prefix_cons]
          refine ⟨rfl,(List.dropLast_prefix _).trans ?_⟩
          exact ⟨xs.drop (j+tag.length),hsplit.symm⟩
        exact hpre.trans htrans

lemma strip_stripped (hne : span ≠ []) {fuel : ℕ} {content : List α} (hf : content.length ≤ fuel) :
    Stripped span content (strip span fuel content).1 := by
  induction fuel generalizing content with
  | zero =>
    have hnil : content = [] := List.length_eq_zero_iff.mp (by omega)
    subst hnil
    refine .free ?_
    rw [List.infix_nil]
    exact hne
  | succ fuel ih =>
    rw [strip]
    cases hi : index content span with
    | none => exact .free (index_eq_none_iff.mp hi)
    | some i =>
      have hsplit := split_of_index hi
      have hlen := congrArg List.length hsplit
      have hpos := List.length_pos_iff.mpr hne
      simp only [List.length_append] at hlen
      have hdrop : (content.drop (i+span.length)).length ≤ fuel := by omega
      have hcopy := Stripped.copy (first_of_index hne hi) (ih hdrop)
      rw [← hsplit] at hcopy
      exact hcopy

/-- No copy comes out exactly where there is none. -/
lemma strip_none_iff {fuel : ℕ} {content : List α} (hf : content.length < fuel) :
    (strip span fuel content).2 = 0 ↔ ¬ span <:+: content := by
  cases fuel with
  | zero => omega
  | succ fuel =>
    rw [strip]
    cases hi : index content span with
    | none => simp [index_eq_none_iff.mp hi]
    | some i =>
      have hin : span <:+: content := by
        by_contra hno
        rw [index_eq_none_iff.mpr hno] at hi
        cases hi
      simp [hin]

end strip

/-- A sequence with some disjoint copies of some words taken out, and nothing else changed. -/
inductive Without (words : List (List α)) : List α → List α → Prop
  | nil : Without words [] []
  | keep (x : α) {content left : List α} (h : Without words content left) :
      Without words (x :: content) (x :: left)
  | take {word content left : List α} (hw : word ∈ words) (h : Without words content left) :
      Without words (word ++ content) left

namespace Without
variable {words : List (List α)} {a b c d : List α}

omit [DecidableEq α] in
lemma keep_append (a : List α) (h : Without words c d) : Without words (a ++ c) (a ++ d) := by
  induction a with
  | nil => exact h
  | cons x a ih => exact .keep x ih

omit [DecidableEq α] in
lemma refl (a : List α) : Without words a a := by
  have h : Without words (a ++ []) (a ++ []) := .keep_append a .nil
  rw [List.append_nil] at h
  exact h

omit [DecidableEq α] in
lemma append (h : Without words a b) (h' : Without words c d) :
    Without words (a ++ c) (b ++ d) := by
  induction h with
  | nil => exact h'
  | keep x _ ih => exact .keep x ih
  | take hw _ ih =>
    rw [List.append_assoc]
    exact .take hw ih

end Without

end Manvi.Encoding
