import Manvi.Transport.EventStream

/-! The lines of a stream, and how normalising its line endings keeps them. -/
namespace Manvi.Transport
open Manvi.Encoding

/-- A line's bytes, and whether CR LF ends it. -/
abbrev Line := Bytes × Bool

/-- The lines of a stream after some bytes of the first one, and what follows the last line
ending. -/
def cutLines : Bytes → Bytes → List Line × Bytes
  | cur,[] => ([],cur)
  | cur,c :: rest =>
    if c = cr then
      match rest with
      | [] => ([(cur,false)],[])
      | d :: rest' =>
        if d = lf then
          let r := cutLines [] rest'
          ((cur,true) :: r.1,r.2)
        else
          let r := cutLines [] (d :: rest')
          ((cur,false) :: r.1,r.2)
    else if c = lf then
      let r := cutLines [] rest
      ((cur,false) :: r.1,r.2)
    else cutLines (cur ++ [c]) rest

/-- The LF that completes a CR LF is dropped. -/
def dropLF (skipLF : Bool) (p : Bytes) : Bytes := if skipLF ∧ p.head? = some lf then p.tail else p

/-- Lines with the same bytes, of which the first list has no more that CR LF ends. -/
def Same (a b : List Line × Bytes) : Prop :=
  List.Forall₂ (fun x y : Line => x.1 = y.1 ∧ (x.2 = true → y.2 = true)) a.1 b.1 ∧ a.2 = b.2

lemma Same.refl (a : List Line × Bytes) : Same a a :=
  ⟨List.forall₂_same.mpr (fun _ _ => ⟨rfl,id⟩),rfl⟩

lemma Same.trans {a b c : List Line × Bytes} (hab : Same a b) (hbc : Same b c) : Same a c := by
  obtain ⟨l,p⟩ := a
  obtain ⟨m,q⟩ := b
  obtain ⟨n,r⟩ := c
  obtain ⟨hab,rfl⟩ := hab
  obtain ⟨hbc,rfl⟩ := hbc
  refine ⟨?_,rfl⟩
  dsimp only at hab hbc ⊢
  induction hab generalizing n with
  | nil => exact hbc
  | cons hx _ ih =>
    cases hbc with
    | cons hy hbc => exact .cons ⟨hx.1.trans hy.1,fun h => hy.2 (hx.2 h)⟩ (ih _ hbc)

lemma Same.cons {a b : List Line × Bytes} {x : Bytes} {u v : Bool} (h : Same a b)
    (huv : u = true → v = true) :
    Same ((x,u) :: a.1,a.2) ((x,v) :: b.1,b.2) :=
  ⟨.cons ⟨rfl,huv⟩ h.1,h.2⟩

lemma cutLines_cr_lf (cur rest : Bytes) :
    cutLines cur (cr :: lf :: rest) = ((cur,true) :: (cutLines [] rest).1,
      (cutLines [] rest).2) := by
  rw [cutLines,if_pos rfl]
  simp

lemma cutLines_cr {rest : Bytes} (h : rest.head? ≠ some lf) (cur : Bytes) :
    cutLines cur (cr :: rest) = ((cur,false) :: (cutLines [] rest).1,(cutLines [] rest).2) := by
  cases rest with
  | nil => simp [cutLines]
  | cons d rest =>
    have hd : d ≠ lf := by simpa using h
    rw [cutLines,if_pos rfl]
    simp [hd]

lemma cutLines_lf (cur rest : Bytes) :
    cutLines cur (lf :: rest) = ((cur,false) :: (cutLines [] rest).1,(cutLines [] rest).2) := by
  rw [cutLines.eq_def]
  exact if_neg (by decide)

lemma cutLines_other {c : UInt8} (hr : c ≠ cr) (hl : c ≠ lf) (cur rest : Bytes) :
    cutLines cur (c :: rest) = cutLines (cur ++ [c]) rest := by
  rw [cutLines.eq_def]
  simp only [hr,hl,if_false]

/-- Normalising the endings of a chunk keeps the lines of the stream, whatever follows. -/
lemma same_scanCR (p : Bytes) (cur rest : Bytes) :
    Same (cutLines cur ((scanCR p).1 ++ dropLF (scanCR p).2 rest)) (cutLines cur (p ++ rest)) := by
  induction p using scanCR.induct generalizing cur with
  | case1 => exact Same.refl _
  | case2 =>
    have hscan : scanCR [cr] = ([lf],true) := rfl
    rw [hscan]
    change Same (cutLines cur (lf :: dropLF true rest)) (cutLines cur (cr :: rest))
    rw [cutLines_lf]
    by_cases h : rest.head? = some lf
    · obtain ⟨tail,rfl⟩ := List.head?_eq_some_iff.mp h
      rw [cutLines_cr_lf]
      exact (Same.refl _).cons (by simp)
    · have hdrop : dropLF true rest = rest := by simp [dropLF,h]
      rw [cutLines_cr h,hdrop]
      exact Same.refl _
  | case3 rest' ih =>
    have hscan : scanCR (cr :: lf :: rest') = (cr :: lf :: (scanCR rest').1,(scanCR rest').2) := by
      rw [scanCR,if_pos rfl]
      simp
    rw [hscan]
    simp only [List.cons_append]
    rw [cutLines_cr_lf,cutLines_cr_lf]
    exact (ih []).cons id
  | case4 d rest' hd ih =>
    have hscan : scanCR (cr :: d :: rest') = (lf :: (scanCR (d :: rest')).1,
      (scanCR (d :: rest')).2) := by
      rw [scanCR,if_pos rfl]
      simp [hd]
    rw [hscan]
    simp only [List.cons_append]
    rw [cutLines_lf,cutLines_cr (by simpa using hd)]
    exact (ih []).cons id
  | case5 c rest' hc ih =>
    have hscan : scanCR (c :: rest') = (c :: (scanCR rest').1,(scanCR rest').2) := by
      rw [scanCR.eq_def]
      simp only [hc,if_false]
    rw [hscan]
    simp only [List.cons_append]
    by_cases hl : c = lf
    · rw [hl,cutLines_lf,cutLines_lf]
      exact (ih []).cons id
    · rw [cutLines_other hc hl,cutLines_other hc hl]
      exact ih _

/-- Bytes in which LF follows every CR. -/
def Clean : Bytes → Prop
  | [] => True
  | c :: rest => (c = cr → rest.head? = some lf) ∧ Clean rest

lemma Clean.append {a b : Bytes} (ha : Clean a) (hb : Clean b) : Clean (a ++ b) := by
  induction a with
  | nil => exact hb
  | cons c a ih =>
    refine ⟨?_,ih ha.2⟩
    intro hc
    have hhead := ha.1 hc
    cases a with
    | nil => cases hhead
    | cons d a => exact hhead

lemma clean_scanCR (p : Bytes) : Clean (scanCR p).1 := by
  induction p using scanCR.induct with
  | case1 => trivial
  | case2 => exact ⟨by simp [cr,lf],trivial⟩
  | case3 rest' ih =>
    rw [scanCR,if_pos rfl]
    simp only [if_true]
    exact ⟨fun _ => rfl,by simp [cr,lf],ih⟩
  | case4 d rest' hd ih =>
    rw [scanCR,if_pos rfl]
    simp only [hd,if_false]
    exact ⟨by simp [cr,lf],ih⟩
  | case5 c rest' hc ih =>
    rw [scanCR.eq_def]
    simp only [hc,if_false]
    exact ⟨fun h => (hc h).elim,ih⟩

@[simp] lemma dropLF_nil (skip : Bool) : dropLF skip [] = [] := by
  simp [dropLF]

/-- One chunk of a stream, with what was to be skipped before it. -/
lemma same_endLines (skip : Bool) (p cur rest : Bytes) :
    Same (cutLines cur ((endLines skip p).1 ++ dropLF (endLines skip p).2 rest))
      (cutLines cur (dropLF skip (p ++ rest))) := by
  unfold endLines
  by_cases hp : p = []
  · rw [if_pos hp,hp]
    exact Same.refl _
  rw [if_neg hp]
  obtain ⟨c,q,rfl⟩ := List.exists_cons_of_ne_nil hp
  by_cases hskip : skip = true ∧ (c :: q).head? = some lf
  · have hdrop : dropLF skip (c :: q ++ rest) = q ++ rest := by
      unfold dropLF
      exact if_pos (by simpa using hskip)
    rw [if_pos hskip,hdrop]
    exact same_scanCR q cur rest
  · rw [if_neg hskip]
    have hdrop : dropLF skip (c :: q ++ rest) = c :: q ++ rest := by
      unfold dropLF
      exact if_neg (by simpa using hskip)
    rw [hdrop]
    exact same_scanCR (c :: q) cur rest

lemma clean_endLines (skip : Bool) (p : Bytes) : Clean (endLines skip p).1 := by
  unfold endLines
  split_ifs
  · trivial
  · exact clean_scanCR _
  · exact clean_scanCR _

/-- Bytes without LF and with LF after every CR hold neither. -/
lemma Clean.plain {b : Bytes} (h : Clean b) (hl : lf ∉ b) : ∀ c ∈ b, c ≠ cr ∧ c ≠ lf := by
  induction b with
  | nil => simp
  | cons c b ih =>
    have hb : lf ∉ b := fun hmem => hl (List.mem_cons_of_mem _ hmem)
    intro d hd
    rcases List.mem_cons.mp hd with rfl | hd
    · refine ⟨?_,fun he => hl (he ▸ List.mem_cons_self)⟩
      intro he
      exact hb (List.mem_of_mem_head? (h.1 he))
    · exact ih h.2 hb d hd

lemma cutLines_plain {b : Bytes} (h : ∀ c ∈ b, c ≠ cr ∧ c ≠ lf) (cur rest : Bytes) :
    cutLines cur (b ++ rest) = cutLines (cur ++ b) rest := by
  induction b generalizing cur with
  | nil => rw [List.append_nil,List.nil_append]
  | cons c b ih =>
    obtain ⟨hc,hb⟩ := List.forall_mem_cons.mp h
    rw [List.cons_append,cutLines_other hc.1 hc.2,ih hb,List.append_assoc,List.singleton_append]

end Manvi.Transport
