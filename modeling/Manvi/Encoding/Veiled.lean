import Manvi.Encoding.Replace

/-! A text with some stretches hidden behind a marker, and what replacing a word by the marker hides
of it. -/
namespace Manvi.Encoding
variable {α : Type}

/-- A word that cannot be read off a marker: it has neither of its ends, and is no part of what is
between them. -/
structure Readable (left right : α) (inner word : List α) : Prop where
  some : word ≠ []
  left : left ∉ word
  right : right ∉ word
  inner : ¬ word <:+: inner

/-- The text from a place on, with a marker for each stretch of hidden places. -/
inductive Veiled (marker text : List α) (hidden : ℕ → Prop) : ℕ → List α → Prop
  | done {c : ℕ} (h : text.length ≤ c) : Veiled marker text hidden c []
  | keep {c : ℕ} {a : α} {s : List α} (h : text[c]? = some a) (hc : ¬ hidden c)
      (rest : Veiled marker text hidden (c+1) s) :
      Veiled marker text hidden c (a :: s)
  | block {c c' : ℕ} {s : List α} (hlt : c < c') (hin : ∀ p, c ≤ p → p < c' → hidden p)
      (rest : Veiled marker text hidden c' s) :
      Veiled marker text hidden c (marker ++ s)

/-- A word stands at a place of the text, and none of its places is hidden. -/
def StandsFree (text : List α) (hidden : ℕ → Prop) (word : List α) (k : ℕ) : Prop :=
  word <+: text.drop k ∧ ∀ t, k ≤ t → t < k+word.length → ¬ hidden t

/-- What is hidden after a word is replaced as well. -/
def hiddenBy (text : List α) (hidden : ℕ → Prop) (word : List α) (p : ℕ) : Prop :=
  hidden p ∨ ∃ k, Takes (StandsFree text hidden word) word.length k ∧ k ≤ p ∧ p < k+word.length

section veiled
variable {text s word : List α} {hidden : ℕ → Prop} {left right : α} {inner : List α} {c : ℕ}

lemma veiled_drop (marker text : List α) (c : ℕ) :
    Veiled marker text (fun _ => False) c (text.drop c) := by
  cases hdrop : text.drop c with
  | nil => exact .done (List.drop_eq_nil_iff.mp hdrop)
  | cons a rest =>
    have ha : text[c]? = some a := by
      rw [← List.head?_drop,hdrop]
      rfl
    have hrest : rest = text.drop (c+1) := by
      rw [← List.tail_drop,hdrop]
      rfl
    rw [hrest]
    exact .keep ha (fun h => h) (veiled_drop marker text (c+1))
termination_by text.length-c
decreasing_by
  have := (List.getElem?_eq_some_iff.mp ha).1
  omega

lemma Veiled.le_of_nil {marker : List α} (hmarker : marker ≠ [])
    (h : Veiled marker text hidden c []) : text.length ≤ c := by
  generalize hs : ([] : List α) = s at h
  cases h with
  | done h => exact h
  | keep _ _ _ => cases hs
  | block _ _ _ => exact (List.append_ne_nil_of_left_ne_nil hmarker _ hs.symm).elim

lemma prefix_cons_drop {a : α} {w : List α} (h : text[c]? = some a) :
    a :: w <+: text.drop c ↔ w <+: text.drop (c+1) := by
  obtain ⟨hlt,hget⟩ := List.getElem?_eq_some_iff.mp h
  rw [List.drop_eq_getElem_cons hlt,hget,List.cons_prefix_cons]
  simp

/-- A word that begins what is left of a marker and goes on is part of it, or has its end. -/
lemma not_prefix_marker (hword : Readable left right inner word) {tail : List α}
    (htail : tail <:+ left :: inner ++ [right])
    (hne : tail ≠ []) : ¬ word <+: tail ++ s := by
  intro hpre
  obtain ⟨front,hfront⟩ := htail
  have hlast : ∃ mid, tail = mid ++ [right] ∧ front ++ mid = left :: inner := by
    refine ⟨tail.dropLast,?_,?_⟩
    · have hright : tail.getLast hne = right := by
        have := List.getLast_append_of_right_ne_nil front tail hne
        rw [← this]
        simp [hfront]
      rw [← hright,List.dropLast_append_getLast]
    · have := congrArg List.dropLast hfront
      rwa [List.dropLast_append_of_ne_nil hne,List.dropLast_concat] at this
  obtain ⟨mid,rfl,hmid⟩ := hlast
  by_cases hlen : word.length ≤ mid.length
  · have hin : word <+: mid := by
      refine List.prefix_of_prefix_length_le hpre ?_ hlen
      rw [List.append_assoc]
      exact List.prefix_append _ _
    have hwhole : word <:+: left :: inner :=
      hmid ▸ (hin.isInfix.trans (List.suffix_append front mid).isInfix)
    obtain hstart | hinner := List.infix_cons_iff.mp hwhole
    · obtain ⟨a,rest,rfl⟩ := List.exists_cons_of_ne_nil hword.some
      have ha : a = left := (List.cons_prefix_cons.mp hstart).1
      exact hword.left (ha ▸ List.mem_cons_self)
    · exact hword.inner hinner
  · have hin : mid ++ [right] <+: word := by
      refine List.prefix_of_prefix_length_le (List.prefix_append _ _) hpre ?_
      rw [List.length_append,List.length_singleton]
      omega
    exact hword.right (hin.subset (by simp))

/-- A word at the head of a veiled text stands free in the text. -/
lemma Veiled.stands (h : Veiled (left :: inner ++ [right]) text hidden c s)
    (hword : ∀ a ∈ word, a ≠ left) (hpre : word <+: s) :
    StandsFree text hidden word c ∧
    Veiled (left :: inner ++ [right]) text hidden (c+word.length) (s.drop word.length) := by
  induction word generalizing c s with
  | nil => exact ⟨⟨List.nil_prefix,fun t hle hlt => by simp at hlt; omega⟩,h⟩
  | cons a word ih =>
    cases h with
    | done => cases List.prefix_nil.mp hpre
    | block hlt hin rest =>
      have ha : a = left := (List.cons_prefix_cons.mp hpre).1
      exact (hword a List.mem_cons_self ha).elim
    | @keep _ b s hb hc rest =>
      obtain ⟨rfl,htail⟩ := List.cons_prefix_cons.mp hpre
      obtain ⟨⟨hstands,hfree⟩,hveiled⟩ :=
        ih rest (fun x hx => hword x (List.mem_cons_of_mem _ hx)) htail
      refine ⟨⟨(prefix_cons_drop hb).mpr hstands,fun t hle hlt => ?_⟩,?_⟩
      · obtain rfl | hlt' := Nat.eq_or_lt_of_le hle
        · exact hc
        · refine hfree t hlt' ?_
          rw [List.length_cons] at hlt
          omega
      · rw [List.length_cons,List.drop_succ_cons,Nat.add_comm word.length 1,← Nat.add_assoc]
        exact hveiled

/-- A word that stands free is at the head of the veiled text. -/
lemma Veiled.prefix_of_stands (h : Veiled (left :: inner ++ [right]) text hidden c s)
    (hstands : StandsFree text hidden word c) :
    word <+: s := by
  induction word generalizing c s with
  | nil => exact List.nil_prefix
  | cons a word ih =>
    obtain ⟨hpre,hfree⟩ := hstands
    have hc := hfree c le_rfl (by simp)
    cases h with
    | done h =>
      rw [List.drop_eq_nil_iff.mpr h] at hpre
      cases List.prefix_nil.mp hpre
    | block hlt hin rest => exact (hc (hin c le_rfl hlt)).elim
    | @keep _ b s hb hc rest =>
      have hsame : a = b := by
        obtain ⟨hlt,hget⟩ := List.getElem?_eq_some_iff.mp hb
        rw [List.drop_eq_getElem_cons hlt,hget] at hpre
        exact (List.cons_prefix_cons.mp hpre).1
      subst hsame
      refine List.cons_prefix_cons.mpr ⟨rfl,
        ih rest ⟨(prefix_cons_drop hb).mp hpre,fun t hle hlt => ?_⟩⟩
      refine hfree t (by omega) ?_
      rw [List.length_cons]
      omega

/-- A replacement goes over what is left of a marker. -/
lemma replaceFrom_marker [DecidableEq α] (hword : Readable left right inner word)
    {new tail : List α} (htail : tail <:+ left :: inner ++ [right])
    (fuel : ℕ) : replaceFrom id word new (tail.length+fuel) (tail ++ s) = tail ++
    replaceFrom id word new fuel s := by
  induction tail with
  | nil => rw [List.length_nil,Nat.zero_add,List.nil_append,List.nil_append]
  | cons a tail ih =>
    have hnot := not_prefix_marker (s := s) hword htail (List.cons_ne_nil a tail)
    rw [List.length_cons,Nat.add_right_comm,List.cons_append,replaceFrom,List.map_id,
      ← List.cons_append,if_neg hnot,List.cons_append]
    rw [ih ((List.suffix_cons a tail).trans htail)]

/-- Nothing that stands free reaches over a hidden place. -/
lemma arrives_behind {c' : ℕ} (hlt : c < c') (hin : ∀ p, c ≤ p → p < c' → hidden p) :
    Arrives (StandsFree text hidden word) word.length c' := by
  intro k hk hreach htakes
  obtain ⟨⟨_,hfree⟩,_⟩ := takes_iff.mp htakes
  exact hfree (c'-1) (by omega) (by omega) (hin (c'-1) (by omega) (by omega))

/-- Replacing a word hides the copies that are taken. -/
lemma Veiled.pass [DecidableEq α] (hword : Readable left right inner word) {fuel : ℕ}
    (h : Veiled (left :: inner ++ [right]) text hidden c s)
    (hfuel : s.length ≤ fuel) (hc : Arrives (StandsFree text hidden word) word.length c) :
    Veiled (left :: inner ++ [right]) text (hiddenBy text hidden word) c
      (replaceFrom id word (left :: inner ++ [right]) fuel s) := by
  have hplain : ∀ a ∈ word, a ≠ left := by
    rintro a ha rfl
    exact hword.left ha
  have hpos := List.length_pos_of_ne_nil hword.some
  induction fuel using Nat.strong_induction_on generalizing c s with
  | h fuel ih =>
    cases h with
    | done h =>
      have hnil : replaceFrom id word (left :: inner ++ [right]) fuel [] = [] := by
        cases fuel <;> rfl
      rw [hnil]
      exact .done h
    | @block _ c' s hlt hin rest =>
      rw [List.length_append] at hfuel
      obtain ⟨fuel,rfl⟩ := Nat.exists_eq_add_of_le (Nat.le_of_add_right_le hfuel)
      rw [replaceFrom_marker hword (List.suffix_refl _)]
      refine .block hlt (fun p hle hp => .inl (hin p hle hp)) (ih fuel ?_ rest (by omega)
        (arrives_behind hlt hin))
      simp
    | @keep _ a s ha hfree rest =>
      obtain ⟨fuel,rfl⟩ : ∃ n, fuel = n+1 := ⟨fuel-1,by rw [List.length_cons] at hfuel; omega⟩
      rw [replaceFrom,List.map_id]
      by_cases hpre : word <+: a :: s
      · rw [if_pos hpre]
        obtain ⟨hstands,hveiled⟩ := (Veiled.keep ha hfree rest).stands hplain hpre
        refine .block (show c < c+word.length by omega) (fun p hle hp => .inr ⟨c,hc.takes hstands,
          hle,hp⟩) ?_
        refine ih fuel (Nat.lt_succ_self _) hveiled ?_ (hc.jump hstands)
        rw [List.length_drop]
        omega
      · rw [if_neg hpre]
        have hnot : ¬ StandsFree text hidden word c :=
          fun hs => hpre ((Veiled.keep ha hfree rest).prefix_of_stands hs)
        refine .keep ha ?_ (ih fuel (Nat.lt_succ_self _) rest
          (by rw [List.length_cons] at hfuel; omega) (hc.next hnot))
        rintro (hhid | ⟨k,htakes,hle,hlt⟩)
        · exact hfree hhid
        · obtain rfl | hkc := Nat.eq_or_lt_of_le hle
          · exact hnot (takes_iff.mp htakes).1
          · exact hc k hkc hlt htakes

/-- Replacing a word in a veiled text veils it further. -/
theorem Veiled.replaceAll [DecidableEq α] (hword : Readable left right inner word)
    (h : Veiled (left :: inner ++ [right]) text hidden 0 s) :
    Veiled (left :: inner ++ [right]) text (hiddenBy text hidden word) 0
      (replaceAll id word (left :: inner ++ [right]) s) :=
  h.pass hword le_rfl (fun k hk => by omega)

/-- No copy of a word stands free once it is replaced. -/
theorem not_standsFree_hiddenBy (hword : word ≠ []) (k : ℕ) :
    ¬ StandsFree text (hiddenBy text hidden word) word k := by
  rintro ⟨hstands,hfree⟩
  have hpos := List.length_pos_of_ne_nil hword
  have hbefore : StandsFree text hidden word k :=
    ⟨hstands,fun t hle hlt hhid => hfree t hle hlt (.inl hhid)⟩
  by_cases hreach : ∃ k', k' < k ∧ k < k'+word.length ∧
    Takes (StandsFree text hidden word) word.length k'
  · obtain ⟨k',hlt,hover,htakes⟩ := hreach
    exact hfree k le_rfl (by omega) (.inr ⟨k',htakes,hlt.le,hover⟩)
  · have htakes : Takes (StandsFree text hidden word) word.length k := by
      refine takes_iff.mpr ⟨hbefore,fun k' hlt hover ht => hreach ⟨k',hlt,hover,ht⟩⟩
    exact hfree k le_rfl (by omega) (.inr ⟨k,htakes,le_rfl,by omega⟩)

/-- A word that is in a veiled text stands free in the text. -/
theorem Veiled.stands_of_infix (h : Veiled (left :: inner ++ [right]) text hidden c s)
    (hword : Readable left right inner word)
    (hin : word <:+: s) : ∃ k, StandsFree text hidden word k := by
  have hplain : ∀ a ∈ word, a ≠ left := by
    rintro a ha rfl
    exact hword.left ha
  induction h with
  | done => exact (hword.some (List.infix_nil.mp hin)).elim
  | @keep c a s ha hc rest ih =>
    obtain hpre | hrest := List.infix_cons_iff.mp hin
    · exact ⟨c,((Veiled.keep ha hc rest).stands hplain hpre).1⟩
    · exact ih hrest
  | @block c c' s hlt hidden rest ih =>
    refine ih ?_
    have hover : ∀ tail, tail <:+ left :: inner ++ [right] → word <:+: tail ++ s → word <:+: s := by
      intro tail
      induction tail with
      | nil => exact fun _ h => h
      | cons a tail ihtail =>
        intro htail h
        obtain hpre | hrest := List.infix_cons_iff.mp h
        · exact (not_prefix_marker hword htail (List.cons_ne_nil a tail) hpre).elim
        · exact ihtail ((List.suffix_cons a tail).trans htail) hrest
    exact hover _ (List.suffix_refl _) hin

end veiled

/-- A place is in a copy of a word. -/
def InCopy (text word : List α) (p : ℕ) : Prop :=
  ∃ i, word <+: text.drop i ∧ i ≤ p ∧ p < i+word.length

/-- What is hidden once some words are replaced, one after another. -/
def hiddenAll (text : List α) (hidden : ℕ → Prop) (words : List (List α)) : ℕ → Prop :=
  words.foldl (hiddenBy text) hidden

/-- Copies of different words that overlap lie one in the other. -/
def Nested (words : List (List α)) (text : List α) : Prop :=
  ∀ v ∈ words, ∀ w ∈ words, v ≠ w → ∀ i k, v <+: text.drop i → w <+: text.drop k → i < k+w.length →
  k < i+v.length →
    (i ≤ k ∧ k+w.length ≤ i+v.length) ∨ (k ≤ i ∧ i+v.length ≤ k+w.length)

/-- Each place in a copy of a word is in a copy of a longer one, or in one of those that are taken
from the left. -/
def Covers (words : List (List α)) (text : List α) : Prop :=
  ∀ v ∈ words, ∀ p, InCopy text v p → (∃ w ∈ words, v.length < w.length ∧ InCopy text w p) ∨
    ∃ k, Takes (fun k => v <+: text.drop k) v.length k ∧ k ≤ p ∧ p < k+v.length

section words
variable {text : List α} {words done : List (List α)} {hidden : ℕ → Prop} {left right : α}
    {inner : List α} {v : List α} {k p : ℕ}

lemma hiddenAll_mono (h : hidden p) : hiddenAll text hidden words p := by
  induction words generalizing hidden with
  | nil => exact h
  | cons w words ih => exact ih (.inl h)

/-- No copy of a word stands free once all are replaced. -/
theorem not_standsFree_hiddenAll (hv : v ∈ words) (hne : v ≠ []) (k : ℕ) :
    ¬ StandsFree text (hiddenAll text hidden words) v k := by
  induction words generalizing hidden with
  | nil => cases hv
  | cons w words ih =>
    obtain rfl | hv := List.mem_cons.mp hv
    · rintro ⟨hstands,hfree⟩
      have hnow : StandsFree text (hiddenBy text hidden v) v k := by
        refine ⟨hstands,fun t hle hlt hhid => hfree t hle hlt ?_⟩
        have hlater : hiddenAll text (hiddenBy text hidden v) words t := hiddenAll_mono hhid
        exact hlater
      exact not_standsFree_hiddenBy hne k hnow
    · exact ih hv

theorem Veiled.foldl_replaceAll [DecidableEq α] {s : List α}
    (hwords : ∀ w ∈ words, Readable left right inner w)
    (h : Veiled (left :: inner ++ [right]) text hidden 0 s) :
    Veiled (left :: inner ++ [right]) text (hiddenAll text hidden words) 0
      (words.foldl (fun s w => Encoding.replaceAll id w (left :: inner ++ [right]) s) s) := by
  induction words generalizing hidden s with
  | nil => exact h
  | cons w words ih =>
    exact ih (fun x hx => hwords x (List.mem_cons_of_mem _ hx))
      (h.replaceAll (hwords w List.mem_cons_self))

/-- What has been hidden so far: the copies of the words that are done, which are all that are
longer than those to come. -/
structure Hides (text : List α) (hidden : ℕ → Prop) (done : List (List α)) : Prop where
  sound : ∀ p, hidden p → ∃ w ∈ done, InCopy text w p
  whole : ∀ w ∈ done, ∀ p, InCopy text w p → hidden p

/-- Copies of two words of one length that lie one in the other are one. -/
lemma eq_of_nested {w : List α} {m : ℕ} (hv : v <+: text.drop k) (hw : w <+: text.drop m)
    (hlen : w.length = v.length) (hkm : k = m) : v = w := by
  subst hkm
  exact (List.prefix_of_prefix_length_le hv hw hlen.ge).eq_of_length hlen.symm

/-- A copy with a hidden place is in a copy of a longer word. -/
lemma Hides.longer (h : Hides text hidden done) (hnested : Nested words text) (hv : v ∈ words)
    (hdone : ∀ w ∈ done, w ∈ words ∧ w ≠ v ∧ v.length ≤ w.length)
    (hstands : v <+: text.drop k) {t : ℕ} (hle : k ≤ t) (hlt : t < k+v.length) (hhid : hidden t) :
    ∃ w ∈ done, v.length < w.length ∧ ∀ q, k ≤ q → q < k+v.length → InCopy text w q := by
  obtain ⟨w,hw,m,hm,hmt,htm⟩ := h.sound t hhid
  obtain ⟨hwords,hne,hlen⟩ := hdone w hw
  have hsame : w.length = v.length → k ≠ m :=
    fun heq hkm => hne (eq_of_nested hstands hm heq hkm).symm
  refine ⟨w,hw,?_,?_⟩
  · obtain ⟨_,_⟩ | ⟨_,_⟩ := hnested v hv w hwords (Ne.symm hne) k m hstands hm (by omega) (by omega)
    · by_contra hshort
      exact hsame (by omega) (by omega)
    · by_contra hshort
      exact hsame (by omega) (by omega)
  · intro q hkq hqk
    refine ⟨m,hm,?_⟩
    obtain ⟨_,_⟩ | ⟨_,_⟩ := hnested v hv w hwords (Ne.symm hne) k m hstands hm (by omega) (by omega)
    · have : ¬ w.length = v.length ∨ k ≠ m := by
        by_cases heq : w.length = v.length
        · exact .inr (hsame heq)
        · exact .inl heq
      omega
    · omega

/-- Where nothing of a copy is hidden, it is taken just where it is taken in the whole text. -/
lemma Hides.takes_iff (h : Hides text hidden done) (hnested : Nested words text) (hv : v ∈ words)
    (hdone : ∀ w ∈ done, w ∈ words ∧ w ≠ v ∧ v.length ≤ w.length)
    (hfree : StandsFree text hidden v k) :
    Takes (fun k => v <+: text.drop k) v.length k ↔
    Takes (StandsFree text hidden v) v.length k := by
  induction k using Nat.strong_induction_on with
  | h k ih =>
    have hover : ∀ k' < k, k < k'+v.length → v <+: text.drop k' → StandsFree text hidden v k' := by
      intro k' hlt hreach hstands
      refine ⟨hstands,fun t hle htk hhid => ?_⟩
      obtain ⟨w,hw,_,hcopy⟩ := h.longer hnested hv hdone hstands hle htk hhid
      exact hfree.2 k le_rfl (by omega) (h.whole w hw k (hcopy k hlt.le hreach))
    rw [Encoding.takes_iff,Encoding.takes_iff]
    constructor
    · rintro ⟨_,hnone⟩
      refine ⟨hfree,fun k' hlt hreach ht => hnone k' hlt hreach ?_⟩
      exact (ih k' hlt (Encoding.takes_iff.mp ht).1).mpr ht
    · rintro ⟨_,hnone⟩
      refine ⟨hfree.1,fun k' hlt hreach ht => hnone k' hlt hreach ?_⟩
      exact (ih k' hlt (hover k' hlt hreach (Encoding.takes_iff.mp ht).1)).mp ht

/-- One more word is hidden whole. -/
lemma Hides.next (h : Hides text hidden done) (hnested : Nested words text)
    (hcovers : Covers words text) (hv : v ∈ words)
    (hdone : ∀ w ∈ done, w ∈ words ∧ w ≠ v ∧ v.length ≤ w.length)
    (hlonger : ∀ w ∈ words, v.length < w.length → w ∈ done) :
    Hides text (hiddenBy text hidden v) (done ++ [v]) := by
  constructor
  · rintro p (hhid | ⟨k,htakes,hle,hlt⟩)
    · obtain ⟨w,hw,hcopy⟩ := h.sound p hhid
      exact ⟨w,List.mem_append_left _ hw,hcopy⟩
    · exact ⟨v,by simp,k,(Encoding.takes_iff.mp htakes).1.1,hle,hlt⟩
  · intro w hw p hcopy
    obtain hw | rfl := List.mem_append.mp hw |>.imp_right List.mem_singleton.mp
    · exact .inl (h.whole w hw p hcopy)
    · by_cases hlong : ∃ w' ∈ words, w.length < w'.length ∧ InCopy text w' p
      · obtain ⟨w',hw',hlt,hcopy'⟩ := hlong
        exact .inl (h.whole w' (hlonger w' hw' hlt) p hcopy')
      · obtain ⟨k,htakes,hle,hlt⟩ := (hcovers w hv p hcopy).resolve_left hlong
        have hstands := (Encoding.takes_iff.mp htakes).1
        have hfree : StandsFree text hidden w k := by
          refine ⟨hstands,fun t hkt htk hhid => hlong ?_⟩
          obtain ⟨w',hw',hlen,hin⟩ := h.longer hnested hv hdone hstands hkt htk hhid
          exact ⟨w',(hdone w' hw').1,hlen,hin p hle hlt⟩
        exact .inr ⟨k,(h.takes_iff hnested hv hdone hfree).mp htakes,hle,hlt⟩

/-- With the longest words first, each copy of a word is hidden whole. -/
lemma Hides.foldl {rest : List (List α)} (h : Hides text hidden done)
    (hwords : words = done ++ rest) (hnested : Nested words text)
    (hcovers : Covers words text) (hnodup : words.Nodup)
    (hlong : words.Pairwise (fun v w => w.length ≤ v.length)) :
    Hides text (hiddenAll text hidden rest) words := by
  induction rest generalizing done hidden with
  | nil =>
    rw [List.append_nil] at hwords
    rw [hwords]
    exact h
  | cons v rest ih =>
    refine ih (h.next hnested hcovers ?_ ?_ ?_) ?_
    · rw [hwords]
      simp
    · intro w hw
      rw [hwords] at hnodup hlong
      refine ⟨by rw [hwords]; exact List.mem_append_left _ hw,?_,?_⟩
      · rintro rfl
        exact (List.disjoint_of_nodup_append hnodup) hw List.mem_cons_self
      · exact (List.pairwise_append.mp hlong).2.2 w hw v List.mem_cons_self
    · intro w hw hlt
      rw [hwords] at hw hlong
      obtain hw | hw := List.mem_append.mp hw
      · exact hw
      · obtain rfl | hw := List.mem_cons.mp hw
        · omega
        · have := (List.pairwise_cons.mp (List.pairwise_append.mp hlong).2.1).1 w hw
          omega
    · rw [hwords,List.append_assoc]
      rfl

/-- With the longest words first, just the copies of words are hidden. -/
theorem hides_hiddenAll (hnested : Nested words text) (hcovers : Covers words text)
    (hnodup : words.Nodup)
    (hlong : words.Pairwise (fun v w => w.length ≤ v.length)) :
    Hides text (hiddenAll text (fun _ => False) words) words := by
  have hnone : Hides text (fun _ => False) [] := ⟨fun _ h => h.elim,fun _ h => (by cases h)⟩
  exact hnone.foldl rfl hnested hcovers hnodup hlong

end words
/-- A copy of a word is chosen when it overlaps no chosen copy of an earlier word, and none of its
own further left. -/
def Chosen (words : List (List α)) (text : List α) (i k : ℕ) : Prop :=
  words.getD i [] ≠ [] ∧ words.getD i [] <+: text.drop k ∧ ∀ i' k', (i' < i ∨ i' = i ∧ k' < k) →
    k < k'+(words.getD i' []).length → k' < k+(words.getD i []).length → ¬ Chosen words text i' k'
termination_by (i,k)
decreasing_by
  rename_i h _ _
  obtain h | ⟨rfl,h⟩ := h
  · exact .left _ _ h
  · exact .right _ h

section chosen
variable {words : List (List α)} {text : List α} {i j k p : ℕ}

lemma chosen_iff : Chosen words text i k ↔ words.getD i [] ≠ [] ∧ words.getD i [] <+: text.drop k ∧
    ∀ i' k', (i' < i ∨ i' = i ∧ k' < k) → k < k'+(words.getD i' []).length →
    k' < k+(words.getD i []).length →
      ¬ Chosen words text i' k' := by
  rw [Chosen]

lemma Chosen.pos (h : Chosen words text i k) : 0 < (words.getD i []).length :=
    List.length_pos_iff.mpr (chosen_iff.mp h).1

lemma Chosen.lt (h : Chosen words text i k) : i < words.length := by
  by_contra hle
  exact (chosen_iff.mp h).1 (List.getD_eq_default _ _ (not_lt.mp hle))

/-- The place is in a chosen copy of one of the first words. -/
def InChosen (words : List (List α)) (text : List α) (j p : ℕ) : Prop :=
  ∃ i < j, ∃ k, Chosen words text i k ∧ k ≤ p ∧ p < k+(words.getD i []).length

/-- Where the chosen copies of the words before are hidden, those taken of the next word are the
chosen ones. -/
lemma takes_iff_chosen {hidden : ℕ → Prop} (hhidden : ∀ p, hidden p ↔ InChosen words text i p)
    (hne : words.getD i [] ≠ []) :
    Takes (StandsFree text hidden (words.getD i [])) (words.getD i []).length k ↔
    Chosen words text i k := by
  induction k using Nat.strong_induction_on with
  | h k ih =>
    have hpos := List.length_pos_iff.mpr hne
    rw [takes_iff,chosen_iff]
    constructor
    · rintro ⟨⟨hstands,hfree⟩,hnone⟩
      refine ⟨hne,hstands,?_⟩
      rintro i' k' (hlt | ⟨rfl,hlt⟩) hleft hright hchosen
      · refine hfree (max k k') (le_max_left _ _) (by omega) ((hhidden _).mpr ⟨i',hlt,k',hchosen,
          le_max_right _ _,?_⟩)
        have := hchosen.pos
        omega
      · exact hnone k' hlt hleft ((ih k' hlt).mpr hchosen)
    · rintro ⟨-,hstands,hnone⟩
      refine ⟨⟨hstands,fun t hle hlt hhid => ?_⟩,fun k' hlt hreach htakes => ?_⟩
      · obtain ⟨i',hi',k',hchosen,hle',hlt'⟩ := (hhidden t).mp hhid
        exact hnone i' k' (.inl hi') (by omega) (by omega) hchosen
      · exact hnone i k' (.inr ⟨rfl,hlt⟩) hreach (by omega) ((ih k' hlt).mp htakes)

lemma hiddenAll_take (hj : j ≤ words.length) :
    hiddenAll text (fun _ => False) (words.take j) p ↔ InChosen words text j p := by
  induction j generalizing p with
  | zero =>
    refine iff_of_false (fun h => h) ?_
    rintro ⟨i,hi,-⟩
    exact Nat.not_lt_zero i hi
  | succ j ih =>
    have hlast : words.take (j+1) = words.take j ++ [words.getD j []] := by
      rw [List.take_succ_eq_append_getElem hj,List.getD_eq_getElem _ _ hj]
    have hprev : ∀ p, hiddenAll text (fun _ => False) (words.take j) p ↔ InChosen words text j p :=
      fun p => ih (Nat.le_of_succ_le hj)
    rw [hlast,hiddenAll,List.foldl_append,List.foldl_cons,List.foldl_nil,hiddenBy]
    change hiddenAll text (fun _ => False) (words.take j) p ∨ _ ↔ _
    rw [hprev]
    constructor
    · rintro (⟨i,hi,hin⟩ | ⟨k,htakes,hle,hlt⟩)
      · exact ⟨i,Nat.lt_succ_of_lt hi,hin⟩
      · have hne : words.getD j [] ≠ [] := by
          intro hnil
          rw [hnil,List.length_nil] at hlt
          omega
        exact ⟨j,Nat.lt_succ_self j,k,(takes_iff_chosen hprev hne).mp htakes,hle,hlt⟩
    · rintro ⟨i,hi,k,hchosen,hle,hlt⟩
      obtain hi | rfl := Nat.lt_succ_iff_lt_or_eq.mp hi
      · exact .inl ⟨i,hi,k,hchosen,hle,hlt⟩
      · exact .inr ⟨k,(takes_iff_chosen hprev (chosen_iff.mp hchosen).1).mpr hchosen,hle,hlt⟩

end chosen
end Manvi.Encoding
