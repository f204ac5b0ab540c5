import Manvi.Encoding.Markers
import Manvi.Encoding.Replace

/-! Where a word stands in a text: counting its copies from the left without overlap, and replacing
the first of them or all. -/
namespace Manvi.Encoding
variable {α : Type} [DecidableEq α]

/-- The copies of a word that are met from the left, each behind the last. -/
def countFrom (word : List α) : ℕ → List α → ℕ
  | 0,_ => 0
  | _+1,[] => 0
  | fuel+1,a :: text =>
    if word <+: a :: text then countFrom word fuel ((a :: text).drop word.length)+1
      else countFrom word fuel text

def countWord (word text : List α) : ℕ := countFrom word text.length text

/-- A text with the first copy of a word replaced. -/
def replaceFirst (word new text : List α) : List α := match index text word with
  | none => text
  | some i => text.take i ++ new ++ text.drop (i+word.length)

/-- A word stands at a place of a text. -/
def Stands (word text : List α) (k : ℕ) : Prop := word <+: text.drop k

/-- A text with the copies of a word replaced from the left: up to the first of them the text stays,
and behind it the same again. -/
inductive Replaced (word new : List α) : List α → List α → Prop where
  | same (text : List α) (h : ∀ k, ¬ Stands word text k) : Replaced word new text text
  | next (before after out : List α)
      (first : ∀ k < before.length, ¬ Stands word (before ++ word ++ after) k)
      (h : Replaced word new after out) :
      Replaced word new (before ++ word ++ after) (before ++ new ++ out)

section stands
variable {word text : List α} {k : ℕ}

omit [DecidableEq α] in
lemma Stands.lt (hword : word ≠ []) (h : Stands word text k) : k+word.length ≤ text.length := by
  have hle := h.length_le
  have hpos := List.length_pos_iff.mpr hword
  rw [List.length_drop] at hle
  omega

omit [DecidableEq α] in
lemma not_stands_nil (hword : word ≠ []) : ¬ Stands word [] k := by
  intro h
  have := h.lt hword
  have hpos := List.length_pos_iff.mpr hword
  rw [List.length_nil] at this
  omega

omit [DecidableEq α] in
lemma stands_drop (n : ℕ) : Stands word (text.drop n) k ↔ Stands word text (n+k) := by
  unfold Stands
  rw [List.drop_drop]

/-- The first place where a word stands. -/
lemma index_eq_some (hword : word ≠ []) {i : ℕ} :
    index text word = some i ↔ Stands word text i ∧ ∀ k < i, ¬ Stands word text k := by
  induction text generalizing i with
  | nil =>
    have hnone : index [] word = none := by
      rw [index,if_neg]
      intro h
      exact hword (List.prefix_nil.mp (List.isPrefixOf_iff_prefix.mp h))
    rw [hnone]
    exact ⟨fun h => (by cases h),fun h => (not_stands_nil hword h.1).elim⟩
  | cons a text ih =>
    by_cases hhere : word <+: a :: text
    · rw [index_cons_of_begins hhere]
      constructor
      · intro h
        cases h
        exact ⟨hhere,fun k hk => (by omega)⟩
      · rintro ⟨_,hfirst⟩
        cases i with
        | zero => rfl
        | succ i => exact (hfirst 0 (by omega) hhere).elim
    · rw [index_cons_of_not_begins hhere]
      cases i with
      | zero =>
        constructor
        · intro h
          cases hi : index text word with
          | none =>
            rw [hi] at h
            cases h
          | some j =>
            rw [hi] at h
            simp at h
        · exact fun h => (hhere h.1).elim
      | succ i =>
        have hmap : (index text word).map (·+1) = some (i+1) ↔ index text word = some i := by
          cases index text word with
          | none => simp
          | some j => simp
        rw [hmap,ih]
        constructor
        · rintro ⟨hi,hfirst⟩
          refine ⟨hi,fun k hk => ?_⟩
          cases k with
          | zero => exact hhere
          | succ k => exact hfirst k (by omega)
        · rintro ⟨hi,hfirst⟩
          exact ⟨hi,fun k hk => hfirst (k+1) (by omega)⟩

/-- A word stands nowhere just when it is not found. -/
lemma index_eq_none (hword : word ≠ []) : index text word = none ↔ ∀ k, ¬ Stands word text k := by
  constructor
  · intro h k hk
    have hex : ∃ k, Stands word text k := ⟨k,hk⟩
    classical
    have := (index_eq_some hword).mpr ⟨Nat.find_spec hex,fun j hj => Nat.find_min hex hj⟩
    rw [h] at this
    cases this
  · intro h
    cases hi : index text word with
    | none => rfl
    | some i => exact (h i ((index_eq_some hword).mp hi).1).elim

omit [DecidableEq α] in
lemma stands_append (hword : word ≠ []) (h : Stands word text k) (more : List α) :
    Stands word (text ++ more) k := by
  have hlen := h.lt hword
  rw [Stands,List.drop_append_of_le_length (by omega)]
  exact List.IsPrefix.trans h (List.prefix_append _ _)

omit [DecidableEq α] in
lemma stands_of_append {more : List α} (h : Stands word (text ++ more) k)
    (hk : k+word.length ≤ text.length) :
    Stands word text k := by
  rw [Stands,List.drop_append_of_le_length (by omega)] at h
  refine List.prefix_of_prefix_length_le h (List.prefix_append _ _) ?_
  rw [List.length_drop]
  omega

/-- A search that goes on where there is no marker yet finds what a search from the start finds. -/
lemma index_from (hword : word ≠ []) (h : ∀ i, i+word.length ≤ k → ¬ Stands word text i) :
    (index (text.drop (k-(word.length-1))) word).map (· + (k-(word.length-1))) =
    index text word := by
  have hpos := List.length_pos_iff.mpr hword
  cases hi : index text word with
  | none =>
    have hnone := (index_eq_none hword).mp hi
    rw [(index_eq_none hword).mpr (fun j hj => hnone _ ((stands_drop _).mp hj))]
    rfl
  | some i =>
    obtain ⟨hstands,hbefore⟩ := (index_eq_some hword).mp hi
    have hge : k-(word.length-1) ≤ i := by
      by_contra hlt
      exact h i (by omega) hstands
    have hthere : index (text.drop (k-(word.length-1))) word = some (i-(k-(word.length-1))) := by
      refine (index_eq_some hword).mpr ⟨(stands_drop _).mpr ?_,
        fun j hj hat => hbefore _ ?_ ((stands_drop _).mp hat)⟩
      · rw [Nat.add_sub_cancel' hge]
        exact hstands
      · omega
    rw [hthere,Option.map_some,Nat.sub_add_cancel hge]

omit [DecidableEq α] in
/-- A word whose first letter comes only once does not reach over that letter. -/
lemma stands_before {e : α} {w a b : List α} (hw : e ∉ w) (h : Stands (e :: w) (a ++ e :: b) k)
    (hk : k < a.length) :
    k+(e :: w).length ≤ a.length := by
  rw [Stands,List.drop_append_of_le_length hk.le] at h
  by_contra hlong
  have hpre : a.drop k ++ [e] <+: e :: w := by
    refine List.prefix_of_prefix_length_le ?_ h ?_
    · exact (List.prefix_append_right_inj _).mpr ⟨b,rfl⟩
    · rw [List.length_append,List.length_drop,List.length_singleton]
      omega
  obtain ⟨x,xs,hx⟩ := List.exists_cons_of_ne_nil (l := a.drop k) (fun he => by
    have := List.drop_eq_nil_iff.mp he
    omega)
  rw [hx,List.cons_append,List.cons_prefix_cons] at hpre
  exact hw (hpre.2.subset (by simp))

end stands

section count
variable {word new text : List α} {fuel : ℕ}

/-- The copies counted are those behind the first and the first. -/
lemma countFrom_eq (hword : word ≠ []) (hfuel : text.length ≤ fuel) :
    countFrom word fuel text = match index text word with
    | none => 0
    | some i => countWord word (text.drop (i+word.length))+1 := by
  have hpos := List.length_pos_iff.mpr hword
  induction hlen : text.length using Nat.strong_induction_on generalizing fuel text with
  | _ n ih =>
    cases fuel with
    | zero =>
      obtain rfl := List.length_eq_zero_iff.mp (Nat.le_zero.mp hfuel)
      rw [(index_eq_none hword).mpr (fun k => not_stands_nil hword)]
      rfl
    | succ fuel =>
      cases text with
      | nil =>
        rw [(index_eq_none hword).mpr (fun k => not_stands_nil hword)]
        rfl
      | cons a text =>
        rw [List.length_cons] at hlen hfuel
        by_cases hhere : word <+: a :: text
        · have hless : ((a :: text).drop word.length).length < n := by
            rw [List.length_drop,List.length_cons]
            omega
          have hsame : countFrom word fuel ((a :: text).drop word.length) = countWord word
            ((a :: text).drop word.length) := by
            rw [countWord,ih _ hless (by omega) rfl,ih _ hless le_rfl rfl]
          rw [index_cons_of_begins hhere,countFrom,if_pos hhere,hsame]
          dsimp only
          rw [Nat.zero_add]
        · rw [index_cons_of_not_begins hhere,countFrom,if_neg hhere,
            ih text.length (by omega) (by omega) rfl]
          cases index text word with
          | none => rfl
          | some i =>
            simp only [Option.map_some]
            rw [show i+1+word.length = (i+word.length)+1 by omega,List.drop_succ_cons]

lemma countWord_eq (hword : word ≠ []) : countWord word text = match index text word with
    | none => 0
    | some i => countWord word (text.drop (i+word.length))+1 := countFrom_eq hword le_rfl

lemma countWord_eq_zero (hword : word ≠ []) :
    countWord word text = 0 ↔ ∀ k, ¬ Stands word text k := by
  rw [countWord_eq hword,← index_eq_none hword]
  cases index text word with
  | none => simp
  | some i => simp

/-- More than one copy is counted just when the word stands at two places that do not overlap. -/
lemma one_lt_countWord (hword : word ≠ []) : 1 < countWord word text ↔
    ∃ j k, Stands word text j ∧ Stands word text k ∧ j+word.length ≤ k := by
  rw [countWord_eq hword]
  cases hi : index text word with
  | none =>
    have hnone := (index_eq_none hword).mp hi
    exact ⟨fun h => (by cases h),fun ⟨j,_,hj,_⟩ => (hnone j hj).elim⟩
  | some i =>
    obtain ⟨hstands,hfirst⟩ := (index_eq_some hword).mp hi
    have hmore : 1 < countWord word (text.drop (i+word.length))+1 ↔
      ¬ countWord word (text.drop (i+word.length)) = 0 := by omega
    rw [hmore,countWord_eq_zero hword,not_forall_not]
    constructor
    · rintro ⟨k,hk⟩
      exact ⟨i,i+word.length+k,hstands,(stands_drop _).mp hk,by omega⟩
    · rintro ⟨j,k,hj,hk,hle⟩
      have hij : i ≤ j := by
        by_contra hlt
        exact hfirst j (by omega) hj
      refine ⟨k-(i+word.length),(stands_drop _).mpr ?_⟩
      rwa [Nat.add_sub_cancel' (by omega)]

omit [DecidableEq α] in
/-- A letter where the word does not begin stays. -/
lemma replaced_cons {a : α} {out : List α} (hhere : ¬ word <+: a :: text)
    (h : Replaced word new text out) :
    Replaced word new (a :: text) (a :: out) := by
  cases h with
  | same _ hnone =>
    refine .same _ (fun k => ?_)
    cases k with
    | zero => exact hhere
    | succ k => exact hnone k
  | next before after out hfirst hrest =>
    refine .next (a :: before) after out (fun k hk => ?_) hrest
    cases k with
    | zero => exact hhere
    | succ k => exact hfirst k (by simpa using hk)

/-- Replacing all copies replaces them from the left. -/
lemma replaced_replaceFrom (hword : word ≠ []) (hfuel : text.length ≤ fuel) :
    Replaced word new text (replaceFrom id word new fuel text) := by
  have hpos := List.length_pos_iff.mpr hword
  induction fuel generalizing text with
  | zero =>
    obtain rfl := List.length_eq_zero_iff.mp (Nat.le_zero.mp hfuel)
    exact .same [] (fun k => not_stands_nil hword)
  | succ fuel ih =>
    cases text with
    | nil => exact .same [] (fun k => not_stands_nil hword)
    | cons a text =>
      rw [List.length_cons] at hfuel
      rw [replaceFrom,List.map_id]
      by_cases hhere : word <+: a :: text
      · rw [if_pos hhere]
        obtain ⟨after,hafter⟩ := hhere
        have hdrop : (a :: text).drop word.length = after := by rw [← hafter,List.drop_left]
        have hlen := congrArg List.length hafter
        rw [List.length_append,List.length_cons] at hlen
        rw [hdrop,← hafter]
        exact .next [] after _ (fun k hk => (by cases hk)) (ih (by omega))
      · rw [if_neg hhere]
        exact replaced_cons hhere (ih (by omega))

lemma replaced_replaceAll (hword : word ≠ []) :
    Replaced word new text (replaceAll id word new text) := replaced_replaceFrom hword le_rfl

end count
end Manvi.Encoding
