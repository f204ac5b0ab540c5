import Manvi.Encoding.Space

/-! White space of a fetched page made plain: runs of spaces and of empty lines. -/
namespace Manvi.Fetch
open Manvi.Encoding.Runes

def replacement : Char := '\uFFFD'

def lineEnd (r : Char) : Bool := r = '\n' || r = '\r'

/-- What stands for white space with so many line ends and so many spaces in it. -/
def separator (newlines spaces : ℕ) : List Char :=
  if 2 ≤ newlines then ['\n','\n'] else if newlines = 1 then ['\n'] else if 0 < spaces then
    [' '] else []

/-- The loop over the characters. White space is counted, and written before the next character. -/
def collapseLoop : List Char → ℕ → ℕ → Bool → List Char
  | [],_,_,_ => []
  | r :: s,newlines,spaces,wrote =>
    if lineEnd r then collapseLoop s (newlines+1) 0 wrote
    else if isSpace r then collapseLoop s newlines (spaces+1) wrote
    else (if wrote then separator newlines spaces else [])
      ++ (if r ≠ replacement then r :: collapseLoop s 0 0 true else collapseLoop s 0 0 wrote)

def collapse (s : List Char) : List Char := trimSpace (collapseLoop s 0 0 false)

/-! A text is what comes before its first character, and its characters, each with what follows
it. -/

/-- A character that is not written. -/
def junk (r : Char) : Bool := isSpace r || r = replacement

/-- What comes first, and each written character with what is between it and the next. -/
def pieces : List Char → List Char × List (Char × List Char)
  | [] => ([],[])
  | r :: s => if junk r then (r :: (pieces s).1,(pieces s).2)
    else ([],(r,(pieces s).1) :: (pieces s).2)

/-- What is written for what is between two characters, with so much counted before it. -/
def gapFrom : List Char → ℕ → ℕ → List Char
  | [],newlines,spaces => separator newlines spaces
  | r :: g,newlines,spaces =>
    if lineEnd r then gapFrom g (newlines+1) 0
    else if isSpace r then gapFrom g newlines (spaces+1)
    else separator newlines spaces ++ gapFrom g 0 0

def gap (g : List Char) : List Char := gapFrom g 0 0

/-- The characters with what is written between them. -/
def render : List (Char × List Char) → List Char
  | [] => []
  | [(c,_)] => [c]
  | (c,g) :: p :: ps => c :: (gap g ++ render (p :: ps))

section pieces
variable {s g : List Char} {newlines spaces : ℕ}

lemma lineEnd_space {r : Char} (h : lineEnd r = true) : isSpace r = true := by
  have hcases : r = '\n' ∨ r = '\r' := by simpa [lineEnd] using h
  obtain rfl | rfl := hcases
  · decide
  · decide

lemma separator_space (newlines spaces : ℕ) :
    ∀ c ∈ separator newlines spaces, isSpace c = true := by
  refine List.all_eq_true.mp ?_
  unfold separator
  split
  · decide
  split
  · decide
  split
  · decide
  · rfl

lemma replacement_not_space : isSpace replacement = false := by decide

lemma not_lineEnd_of_not_junk {r : Char} (h : junk r = false) :
    lineEnd r = false ∧ isSpace r = false ∧ r ≠ replacement := by
  have hs : isSpace r = false ∧ r ≠ replacement := by simpa [junk] using h
  refine ⟨?_,hs⟩
  rw [Bool.eq_false_iff]
  intro hl
  rw [lineEnd_space hl] at hs
  cases hs.1

lemma pieces_junk {r : Char} (h : junk r = true) (s : List Char) :
    pieces (r :: s) = (r :: (pieces s).1,(pieces s).2) := by
  rw [pieces,if_pos h]

lemma pieces_written {r : Char} (h : junk r = false) (s : List Char) :
    pieces (r :: s) = ([],(r,(pieces s).1) :: (pieces s).2) := by
  rw [pieces,if_neg (by rw [h]; decide)]

/-- What a rest of a text adds to what is rendered: the pieces of it behind what was counted, and
white space. -/
def Adds (s : List Char) (newlines spaces : ℕ) (out : List Char) : Prop :=
  ∃ rest, (∀ c ∈ rest, isSpace c = true)
  ∧ (((pieces s).2 = [] ∧ out = rest) ∨
    ((pieces s).2 ≠ [] ∧ out = gapFrom (pieces s).1 newlines spaces ++ render (pieces s).2 ++ rest))

lemma collapseLoop_wrote (s : List Char) (newlines spaces : ℕ) :
    Adds s newlines spaces (collapseLoop s newlines spaces true) := by
  induction s generalizing newlines spaces with
  | nil => exact ⟨[],fun c hc => (by cases hc),Or.inl ⟨rfl,rfl⟩⟩
  | cons r s ih =>
    unfold collapseLoop
    by_cases hline : lineEnd r = true
    · obtain ⟨rest,hrest,hout⟩ := ih (newlines+1) 0
      have hjunk : junk r = true := by simp [junk,lineEnd_space hline]
      rw [if_pos hline]
      refine ⟨rest,hrest,?_⟩
      rw [pieces_junk hjunk]
      dsimp only
      rw [gapFrom,if_pos hline]
      exact hout
    · rw [if_neg hline]
      by_cases hspace : isSpace r = true
      · obtain ⟨rest,hrest,hout⟩ := ih newlines (spaces+1)
        have hjunk : junk r = true := by simp [junk,hspace]
        rw [if_pos hspace]
        refine ⟨rest,hrest,?_⟩
        rw [pieces_junk hjunk]
        dsimp only
        rw [gapFrom,if_neg hline,if_pos hspace]
        exact hout
      · rw [if_neg hspace,if_pos rfl]
        obtain ⟨rest,hrest,hout⟩ := ih 0 0
        by_cases hrep : r = replacement
        · have hjunk : junk r = true := by simp [junk,hrep]
          rw [if_neg (by simp [hrep])]
          rw [Adds,pieces_junk hjunk]
          dsimp only
          rw [gapFrom,if_neg hline,if_neg hspace]
          obtain ⟨hps,hout⟩ | ⟨hps,hout⟩ := hout
          · refine ⟨separator newlines spaces ++ rest,fun c hc => ?_,Or.inl ⟨hps,by rw [hout]⟩⟩
            obtain hc | hc := List.mem_append.mp hc
            · exact separator_space _ _ c hc
            · exact hrest c hc
          · refine ⟨rest,hrest,Or.inr ⟨hps,?_⟩⟩
            rw [hout]
            simp only [List.append_assoc]
        · have hjunk : junk r = false := by simp [junk,hspace,hrep]
          rw [if_pos hrep]
          rw [Adds,pieces_written hjunk]
          refine ⟨rest,hrest,Or.inr ⟨by simp,?_⟩⟩
          dsimp only
          rw [gapFrom]
          obtain ⟨hps,hout⟩ | ⟨hps,hout⟩ := hout
          · rw [hps,hout]
            simp [render]
          · obtain ⟨p,ps,hp⟩ := List.exists_cons_of_ne_nil hps
            rw [hp] at hout ⊢
            rw [hout]
            simp [render,gap]

/-- Nothing is written before the first character. -/
lemma collapseLoop_start (s : List Char) (newlines spaces : ℕ) :
    ∃ rest, (∀ c ∈ rest, isSpace c = true)
    ∧ collapseLoop s newlines spaces false = render (pieces s).2 ++ rest := by
  induction s generalizing newlines spaces with
  | nil => exact ⟨[],fun c hc => (by cases hc),rfl⟩
  | cons r s ih =>
    unfold collapseLoop
    by_cases hline : lineEnd r = true
    · have hjunk : junk r = true := by simp [junk,lineEnd_space hline]
      rw [if_pos hline,pieces_junk hjunk]
      exact ih (newlines+1) 0
    · rw [if_neg hline]
      by_cases hspace : isSpace r = true
      · have hjunk : junk r = true := by simp [junk,hspace]
        rw [if_pos hspace,pieces_junk hjunk]
        exact ih newlines (spaces+1)
      · rw [if_neg hspace,if_neg (by decide),List.nil_append]
        by_cases hrep : r = replacement
        · have hjunk : junk r = true := by simp [junk,hrep]
          rw [if_neg (by simp [hrep]),pieces_junk hjunk]
          exact ih 0 0
        · have hjunk : junk r = false := by simp [junk,hspace,hrep]
          obtain ⟨rest,hrest,hout⟩ := collapseLoop_wrote s 0 0
          refine ⟨rest,hrest,?_⟩
          rw [if_pos hrep,pieces_written hjunk]
          obtain ⟨hps,hout⟩ | ⟨hps,hout⟩ := hout
          · rw [hps,hout]
            rfl
          · obtain ⟨p,ps,hp⟩ := List.exists_cons_of_ne_nil hps
            rw [hp] at hout ⊢
            rw [hout]
            simp [render,gap]

lemma pieces_chars (s : List Char) : ∀ p ∈ (pieces s).2, junk p.1 = false := by
  induction s with
  | nil => intro p hp; cases hp
  | cons r s ih =>
    by_cases hjunk : junk r = true
    · rw [pieces_junk hjunk]
      exact ih
    · rw [Bool.not_eq_true] at hjunk
      rw [pieces_written hjunk]
      intro p hp
      obtain rfl | hp := List.mem_cons.mp hp
      · exact hjunk
      · exact ih p hp

lemma trimSpace_ends {c d : Char} {x y rest : List Char} (hx : x = c :: y) (hc : isSpace c = false)
    (hlast : x.getLast? = some d)
    (hd : isSpace d = false) (hrest : ∀ r ∈ rest, isSpace r = true) :
    trimSpace (x ++ rest) = x := by
  have hfront : (x ++ rest).dropWhile isSpace = x ++ rest := by
    rw [hx,List.cons_append,List.dropWhile_cons_of_neg (by rw [hc]; decide)]
  obtain ⟨z,hz⟩ := List.getLast?_eq_some_iff.mp hlast
  have hall : rest.reverse.dropWhile isSpace = [] :=
    List.dropWhile_eq_nil_iff.mpr (fun r hr => hrest r (List.mem_reverse.mp hr))
  have hback : (x.reverse).dropWhile isSpace = x.reverse := by
    rw [hz,List.reverse_append,List.reverse_singleton,List.singleton_append,
      List.dropWhile_cons_of_neg (by rw [hd]; decide)]
  rw [trimSpace,hfront,List.reverse_append,List.dropWhile_append,hall]
  simp only [List.isEmpty_nil,if_true]
  rw [hback,List.reverse_reverse]

/-- A rendered text opens and ends with a character. -/
lemma render_ends {ps : List (Char × List Char)} (hps : ps ≠ []) :
    ∃ p ∈ ps, ∃ q ∈ ps, ∃ y, render ps = p.1 :: y ∧ (render ps).getLast? = some q.1 := by
  induction ps with
  | nil => exact absurd rfl hps
  | cons p ps ih => cases ps with
    | nil => exact ⟨p,List.mem_cons_self,p,List.mem_cons_self,[],rfl,rfl⟩
    | cons p' ps =>
      obtain ⟨_,_,q,hq,y,hy,hlast⟩ := ih (by simp)
      refine ⟨p,List.mem_cons_self,q,List.mem_cons_of_mem _ hq,_,rfl,?_⟩
      rw [render,← List.cons_append,List.getLast?_append,hlast]
      rfl

/-- A collapsed text is its characters with what is written between them. -/
lemma collapse_eq (s : List Char) : collapse s = render (pieces s).2 := by
  obtain ⟨rest,hrest,hout⟩ := collapseLoop_start s 0 0
  rw [collapse,hout]
  by_cases hps : (pieces s).2 = []
  · rw [hps,render,List.nil_append,trimSpace]
    have hall : rest.dropWhile isSpace = [] := List.dropWhile_eq_nil_iff.mpr hrest
    rw [hall]
    rfl
  · obtain ⟨p,hp,q,hq,y,hy,hlast⟩ := render_ends hps
    have hpc := (not_lineEnd_of_not_junk (pieces_chars s p hp)).2.1
    have hqc := (not_lineEnd_of_not_junk (pieces_chars s q hq)).2.1
    exact trimSpace_ends hy hpc hlast hqc hrest

/-- What is between each written character and the next. -/
def inner (ps : List (Char × List Char)) : List (List Char) := ps.dropLast.map Prod.snd

def between (s : List Char) : List (List Char) := inner (pieces s).2

@[simp] lemma inner_cons (p q : Char × List Char) (ps : List (Char × List Char)) :
    inner (p :: q :: ps) = p.2 :: inner (q :: ps) := by
  simp [inner]

lemma gapFrom_space (g : List Char) (newlines spaces : ℕ) :
    ∀ c ∈ gapFrom g newlines spaces, isSpace c = true := by
  induction g generalizing newlines spaces with
  | nil => exact separator_space newlines spaces
  | cons r g ih =>
    unfold gapFrom
    split
    · exact ih _ _
    split
    · exact ih _ _
    · intro c hc
      obtain hc | hc := List.mem_append.mp hc
      · exact separator_space _ _ c hc
      · exact ih _ _ c hc

lemma gap_space (g : List Char) : ∀ c ∈ gap g, isSpace c = true := gapFrom_space g 0 0

lemma pieces_append_space {w : List Char} (hw : ∀ c ∈ w, isSpace c = true) (s : List Char) :
    pieces (w ++ s) = (w ++ (pieces s).1,(pieces s).2) := by
  induction w with
  | nil => rfl
  | cons r w ih =>
    have hjunk : junk r = true := by simp [junk,hw r List.mem_cons_self]
    rw [List.cons_append,pieces_junk hjunk,ih (fun c hc => hw c (List.mem_cons_of_mem _ hc))]
    rfl

/-- A rendered text has the same characters, and between them what was written there. -/
lemma pieces_render {ps : List (Char × List Char)} (hps : ∀ p ∈ ps, junk p.1 = false) :
    (pieces (render ps)).1 = [] ∧ (pieces (render ps)).2.map Prod.fst = ps.map Prod.fst
      ∧ inner (pieces (render ps)).2 = (inner ps).map gap := by
  induction ps with
  | nil => exact ⟨rfl,rfl,rfl⟩
  | cons p ps ih => cases ps with
    | nil =>
      rw [show render [p] = [p.1] from rfl,pieces_written (hps p List.mem_cons_self)]
      exact ⟨rfl,rfl,rfl⟩
    | cons q ps =>
      obtain ⟨hfirst,hchars,hinner⟩ := ih (fun r hr => hps r (List.mem_cons_of_mem _ hr))
      have hsplit : pieces (gap p.2 ++ render (q :: ps)) = (gap p.2,
        (pieces (render (q :: ps))).2) := by
        rw [pieces_append_space (gap_space p.2),hfirst,List.append_nil]
      rw [show render (p :: q :: ps) = p.1 :: (gap p.2 ++ render (q :: ps)) from rfl,
        pieces_written (hps p List.mem_cons_self),hsplit]
      refine ⟨rfl,?_,?_⟩
      · simp only [List.map_cons] at hchars ⊢
        rw [hchars]
      · have hne : (pieces (render (q :: ps))).2 ≠ [] := fun hnil => by
          rw [hnil] at hchars
          cases hchars
        obtain ⟨r,rs,hr⟩ := List.exists_cons_of_ne_nil hne
        dsimp only
        rw [hr] at hinner ⊢
        rw [inner_cons,inner_cons,hinner]
        rfl

lemma render_congr {ps qs : List (Char × List Char)} (hchars : ps.map Prod.fst = qs.map Prod.fst)
    (hinner : (inner ps).map gap = (inner qs).map gap) : render ps = render qs := by
  induction ps generalizing qs with
  | nil => rw [List.map_eq_nil_iff.mp hchars.symm]
  | cons p ps ih => cases qs with
    | nil => cases hchars
    | cons q qs =>
      obtain ⟨hhead,htail⟩ := List.cons.inj hchars
      cases ps with
      | nil =>
        rw [List.map_eq_nil_iff.mp htail.symm]
        exact congrArg (fun c => [c]) hhead
      | cons p' ps => cases qs with
        | nil => cases htail
        | cons q' qs =>
          rw [inner_cons,inner_cons,List.map_cons,List.map_cons] at hinner
          obtain ⟨hgap,hrest⟩ := List.cons.inj hinner
          have htails := ih htail hrest
          change p.1 :: (gap p.2 ++ render (p' :: ps)) = q.1 :: (gap q.2 ++ render (q' :: qs))
          rw [hgap,htails,show p.1 = q.1 from hhead]

/-- With the same characters, two texts are rendered the same exactly if the same is written between
them. -/
lemma render_eq_iff {ps qs : List (Char × List Char)} (hps : ∀ p ∈ ps, junk p.1 = false)
    (hqs : ∀ p ∈ qs, junk p.1 = false)
    (hchars : ps.map Prod.fst = qs.map Prod.fst) :
    render ps = render qs ↔ (inner ps).map gap = (inner qs).map gap := by
  constructor
  · intro h
    rw [← (pieces_render hps).2.2,← (pieces_render hqs).2.2,h]
  · exact render_congr hchars

end pieces
end Manvi.Fetch
