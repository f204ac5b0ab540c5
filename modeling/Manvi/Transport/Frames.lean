import Manvi.Transport.Chunking

/-! The frames that the preflight of a stream takes, and their blocks of lines. -/
namespace Manvi.Transport
open Manvi.Encoding

/-- The width of the line ending at the start of a text: none for a CR that is the last byte
seen. -/
def lineEnding : Bytes → ℤ
  | [] => 0
  | c :: rest =>
    if c = lf then 1
    else if c = cr then
      match rest with
      | [] => -1
      | d :: _ => if d = lf then 2 else 1
    else 0

/-- Look for a blank line from some place in a text. -/
def splitFrom : ℕ → Bytes → Bytes → Option (Bytes × ℕ)
  | 0,_,_ => none
  | fuel+1,seen,rest =>
    if rest = [] then none
    else
      let first := lineEnding rest
      if first < 0 then none
      else if first = 0 then splitFrom fuel (seen ++ rest.take 1) (rest.drop 1)
      else
        let next := rest.drop first.toNat
        if next = [] then none
        else
          let second := lineEnding next
          if second < 0 then none
          else if second > 0 then some (seen,seen.length+first.toNat+second.toNat)
          else splitFrom fuel (seen ++ rest.take first.toNat) next

/-- The first whole frame of a text, and how many bytes it takes with its blank line. -/
def splitFrame (rest : Bytes) : Option (Bytes × ℕ) := splitFrom (rest.length+1) [] rest

def replaceCRLF : Bytes → Bytes
  | [] => []
  | c :: rest =>
    if c = cr then
      match rest with
      | [] => [cr]
      | d :: rest' => if d = lf then lf :: replaceCRLF rest' else cr :: replaceCRLF (d :: rest')
    else c :: replaceCRLF rest

def replaceCR (b : Bytes) : Bytes := b.map (fun c => if c = cr then lf else c)

def frameLines (frame : Bytes) : List Bytes := (replaceCR (replaceCRLF frame)).splitOn lf

/-- Read a line of a frame into the name and the data lines. -/
def readFrameLine (fields : Bytes × List Bytes) (line : Bytes) : Bytes × List Bytes :=
  if [colon].isPrefixOf line then fields
  else if (eventField ++ [colon]).isPrefixOf line then (trimSpace (line.drop 6),fields.2)
  else if (dataField ++ [colon]).isPrefixOf line then
    let value := line.drop 5
    (fields.1,fields.2 ++ [if value.head? = some 32 then value.tail else value])
  else fields

def lineFields (lines : List Bytes) : Event :=
  let fields := lines.foldl readFrameLine ([],[])
  ⟨fields.1,[lf].intercalate fields.2⟩

/-- The name and the joined data lines of a frame. -/
def frameFields (frame : Bytes) : Event := lineFields (frameLines frame)

/-- A body that has ended: a CR that is its last byte is a line ending. -/
def completed (b : Bytes) : Bytes := if b.getLast? = some cr then b ++ [lf] else b

/-- The frames of a body that has ended. -/
def wholeFrames : ℕ → Bytes → List Bytes
  | 0,_ => []
  | fuel+1,rest =>
    match splitFrame (completed rest) with
    | none => []
    | some (frame,size) => frame :: wholeFrames fuel (rest.drop size)

/-- What the preflight reads of a stream, without the frames that hold neither a name nor data. -/
def framePairs (b : Bytes) : List Event :=
  ((wholeFrames (b.length+1) (stripBOM b)).map frameFields).filter (fun event => event ≠ ⟨[],[]⟩)

section
variable {α β : Type*}

/-- Blocks that blank lines end, the first line of a block being free. -/
def gather (blank : α → Bool) : List α → List α → List (List α)
  | _,[] => []
  | [],l :: lines => gather blank [l] lines
  | x :: block,l :: lines =>
    if blank l then (x :: block) :: gather blank [] lines else gather blank (x :: block ++
      [l]) lines

lemma gather_map (f : α → β) (blank : β → Bool) (block lines : List α) :
    gather blank (block.map f) (lines.map f) = (gather (fun x => blank (f x)) block lines).map
    (List.map f) := by
  induction lines generalizing block with
  | nil =>
    rw [List.map_nil,gather,gather]
    rfl
  | cons l lines ih =>
    cases block with
    | nil => exact ih [l]
    | cons x block =>
      rw [List.map_cons,List.map_cons,gather,gather]
      by_cases hblank : blank (f l) = true
      · have hrest := ih []
        rw [List.map_nil] at hrest
        rw [if_pos hblank,if_pos hblank,hrest]
        rfl
      · have hrest := ih (x :: block ++ [l])
        rw [List.map_append,List.map_cons,List.map_cons,List.map_nil] at hrest
        rw [if_neg hblank,if_neg hblank]
        exact hrest

/-- Lines up to the first blank one, and those after it. -/
def cutBlank (blank : α → Bool) : List α → Option (List α × List α)
  | [] => none
  | l :: lines => if blank l then some ([],lines)
    else (cutBlank blank lines).map (fun r => (l :: r.1,r.2))

/-- The first block of some lines. -/
def takeBlock (blank : α → Bool) : List α → Option (List α × List α)
  | [] => none
  | l :: lines => (cutBlank blank lines).map (fun r => (l :: r.1,r.2))

lemma gather_cons (blank : α → Bool) (x : α) (block lines : List α) :
    gather blank (x :: block) lines = match cutBlank blank lines with
      | none => []
      | some (mid,rest) => (x :: block ++ mid) :: gather blank [] rest := by
  induction lines generalizing block with
  | nil => rfl
  | cons l lines ih =>
    rw [gather,cutBlank]
    by_cases hblank : blank l = true
    · rw [if_pos hblank,if_pos hblank]
      simp
    · rw [if_neg hblank,if_neg hblank]
      have hrest := ih (block ++ [l])
      rw [List.cons_append,hrest]
      cases cutBlank blank lines with
      | none => rfl
      | some r => simp

lemma gather_nil (blank : α → Bool) (lines : List α) :
    gather blank [] lines = match takeBlock blank lines with
      | none => []
      | some (block,rest) => block :: gather blank [] rest := by
  cases lines with
  | nil => rfl
  | cons l lines =>
    rw [gather,gather_cons,takeBlock]
    cases cutBlank blank lines with
    | none => rfl
    | some r => rfl

end

/-- The bytes of the lines of a stream. -/
def contents (cur b : Bytes) : List Bytes := (cutLines cur b).1.map Prod.fst

lemma contents_other {c : UInt8} (hr : c ≠ cr) (hl : c ≠ lf) (cur rest : Bytes) :
    contents cur (c :: rest) = contents (cur ++ [c]) rest := by
  rw [contents,cutLines_other hr hl]
  rfl

/-- A line ending with what follows it. -/
inductive Ends : Bytes → Bytes → Prop
  | byLF (rest : Bytes) : Ends (lf :: rest) rest
  | byCRLF (rest : Bytes) : Ends (cr :: lf :: rest) rest
  | byCR {rest : Bytes} (h : rest.head? ≠ some lf) : Ends (cr :: rest) rest

lemma Ends.cutLines_eq {s next : Bytes} (h : Ends s next) (cur : Bytes) :
    ∃ b, cutLines cur s = ((cur,b) :: (cutLines [] next).1,(cutLines [] next).2) := by
  cases h with
  | byLF => exact ⟨false,cutLines_lf _ _⟩
  | byCRLF => exact ⟨true,cutLines_cr_lf _ _⟩
  | byCR h => exact ⟨false,cutLines_cr h _⟩

lemma Ends.contents_eq {s next : Bytes} (h : Ends s next) (cur : Bytes) :
    contents cur s = cur :: contents [] next := by
  obtain ⟨b,hb⟩ := h.cutLines_eq cur
  rw [contents,hb]
  rfl

/-- What the width of a line ending says of a text that does not end in CR. -/
lemma lineEnding_cases {s : Bytes} (hne : s ≠ []) (hs : s.getLast? ≠ some cr) :
    (lineEnding s = 0 ∧ ∃ c rest, s = c :: rest ∧ c ≠ cr ∧ c ≠ lf) ∨
      (0 < lineEnding s ∧ 0 < (lineEnding s).toNat ∧ Ends s (s.drop (lineEnding s).toNat)) := by
  obtain ⟨c,rest,rfl⟩ := List.exists_cons_of_ne_nil hne
  by_cases hl : c = lf
  · have hwidth : lineEnding (c :: rest) = 1 := by
      cases rest <;> simp [lineEnding,hl]
    rw [hwidth,hl]
    exact .inr ⟨by decide,by decide,.byLF rest⟩
  by_cases hc : c = cr
  · cases rest with
    | nil => exact absurd (by rw [hc]; rfl) hs
    | cons d rest =>
      by_cases hd : d = lf
      · have hwidth : lineEnding (c :: d :: rest) = 2 := by
          simp [lineEnding,hc,hd,show cr ≠ lf by decide]
        rw [hwidth,hc,hd]
        exact .inr ⟨by decide,by decide,.byCRLF rest⟩
      · have hwidth : lineEnding (c :: d :: rest) = 1 := by
          simp [lineEnding,hc,hd,show cr ≠ lf by decide]
        rw [hwidth,hc]
        exact .inr ⟨by decide,by decide,.byCR (by simpa using hd)⟩
  · have hwidth : lineEnding (c :: rest) = 0 := by
      cases rest <;> simp [lineEnding,hl,hc]
    exact .inl ⟨hwidth,c,rest,rfl,hc,hl⟩

lemma getLast?_drop {s : Bytes} {n : ℕ} (h : s.drop n ≠ []) : (s.drop n).getLast? = s.getLast? := by
  conv_rhs => rw [← List.take_append_drop n s]
  rw [List.getLast?_append_of_ne_nil _ h]

/-- A line that has begun is not blank. -/
lemma contents_head {cur s l : Bytes} {lines : List Bytes} (h : contents cur s = l :: lines)
    (hcur : cur ≠ []) :
    l ≠ [] := by
  induction s generalizing cur with
  | nil => cases h
  | cons c s ih =>
    by_cases hc : c = cr ∨ c = lf
    · have hends : ∃ next, Ends (c :: s) next := by
        rcases hc with rfl | rfl
        · by_cases hs : s.head? = some lf
          · obtain ⟨tail,rfl⟩ := List.head?_eq_some_iff.mp hs
            exact ⟨tail,.byCRLF tail⟩
          · exact ⟨s,.byCR hs⟩
        · exact ⟨s,.byLF s⟩
      obtain ⟨next,hends⟩ := hends
      rw [hends.contents_eq] at h
      cases h
      exact hcur
    · rw [not_or] at hc
      rw [contents_other hc.1 hc.2] at h
      exact ih h (by simp)

/-- What a look for a blank line finds, from a place in a line that has begun so. -/
structure Splits (seen s cur : Bytes) (found : Bytes × ℕ) (p : Bytes) : Prop where
  frame : found.1 = seen ++ p
  within : p <+: s
  block : takeBlock (· = []) (contents cur s) =
    some (contents cur p ++ [(cutLines cur p).2],contents [] (s.drop (found.2-seen.length)))
  size : seen.length < found.2
  after : ∃ t, t <:+ s ∧ Ends t (s.drop (found.2-seen.length))

lemma takeBlock_cons {l : Bytes} {lines : List Bytes} (hl : ∀ x rest, lines = x :: rest → x ≠ []) :
    takeBlock (· = []) (l :: lines) = (takeBlock (· = []) lines).map (fun r => (l :: r.1,r.2)) := by
  rw [takeBlock]
  cases lines with
  | nil => rfl
  | cons x rest =>
    rw [cutBlank,if_neg (by simpa using hl x rest rfl),takeBlock]

lemma Splits.other {seen rest cur p : Bytes} {c : UInt8} {found : Bytes × ℕ} (hc : c ≠ cr)
    (hl : c ≠ lf)
    (h : Splits (seen ++ [c]) rest (cur ++ [c]) found p) :
    Splits seen (c :: rest) cur found (c :: p) := by
  obtain ⟨hframe,hwithin,hblock,hsize,t,ht,hafter⟩ := h
  rw [List.length_append,List.length_singleton] at hsize hblock hafter
  obtain ⟨k,hk⟩ : ∃ k, found.2-seen.length = k+1 := ⟨found.2-seen.length-1,by omega⟩
  have hdrop : found.2-(seen.length+1) = k := by omega
  rw [hdrop] at hblock hafter
  refine ⟨?_,?_,?_,by omega,t,ht.trans (List.suffix_cons _ _),?_⟩
  · rw [hframe,List.append_assoc,List.singleton_append]
  · exact List.cons_prefix_cons.mpr ⟨rfl,hwithin⟩
  · rw [contents_other hc hl,contents_other hc hl,cutLines_other hc hl,hblock,hk,
      List.drop_succ_cons]
  · rw [hk,List.drop_succ_cons]
    exact hafter

/-- The ending of a line, with a beginning of what follows. -/
lemma Ends.prefixed {s next p : Bytes} {c : UInt8} (h : Ends s next) (hnext : next.head? = some c)
    (hl : c ≠ lf)
    (hp : p <+: next) : ∃ e, s = e ++ next ∧ Ends (e ++ p) p := by
  have hhead : p.head? ≠ some lf := by
    obtain ⟨tail,rfl⟩ := hp
    cases p with
    | nil => simp
    | cons d p =>
      have : d = c := by simpa using hnext
      simpa [this] using hl
  cases h with
  | byLF => exact ⟨[lf],rfl,.byLF p⟩
  | byCRLF => exact ⟨[cr,lf],rfl,.byCRLF p⟩
  | byCR => exact ⟨[cr],rfl,.byCR hhead⟩

/-- A line that starts with an ordinary byte is not blank. -/
lemma contents_ordinary {next x : Bytes} {rest : List Bytes} {c : UInt8}
    (hnext : next.head? = some c) (hc : c ≠ cr)
    (hl : c ≠ lf) (h : contents [] next = x :: rest) : x ≠ [] := by
  obtain ⟨tail,rfl⟩ := List.head?_eq_some_iff.mp hnext
  rw [contents_other hc hl] at h
  exact contents_head h (by simp)

/-- A frame that goes on after the end of a line. -/
lemma Splits.ending {seen s p : Bytes} {n : ℕ} {c : UInt8} {found : Bytes × ℕ} (cur : Bytes)
    (hends : Ends s (s.drop n))
    (hnext : (s.drop n).head? = some c) (hc : c ≠ cr) (hl : c ≠ lf)
    (h : Splits (seen ++ s.take n) (s.drop n) [] found p) : ∃ p, Splits seen s cur found p := by
  obtain ⟨hframe,hwithin,hblock,hsize,t,ht,hafter⟩ := h
  obtain ⟨e,hs,hp⟩ := hends.prefixed hnext hl hwithin
  have he : s.take n = e := by
    apply List.append_cancel_right
    rw [List.take_append_drop]
    exact hs
  rw [he] at hframe hsize hblock hafter
  rw [List.length_append] at hsize hblock hafter
  have hdrop : s.drop (found.2-seen.length) = (s.drop n).drop (found.2-(seen.length+e.length)) := by
    have hk : found.2-seen.length = e.length+(found.2-(seen.length+e.length)) := by omega
    rw [hk]
    conv_lhs => rw [hs]
    rw [List.drop_length_add_append]
  refine ⟨e ++ p,?_,?_,?_,by omega,t,ht.trans (List.drop_suffix _ _),hdrop ▸ hafter⟩
  · rw [hframe,List.append_assoc]
  · rw [hs]
    exact (List.prefix_append_right_inj e).mpr hwithin
  · obtain ⟨b,hlines⟩ := hp.cutLines_eq cur
    rw [hends.contents_eq,takeBlock_cons (fun x rest => contents_ordinary hnext hc hl),hblock,hdrop,
      hp.contents_eq,
      hlines]
    rfl

lemma splitFrom_spec {fuel : ℕ} (seen : Bytes) {s : Bytes} (cur : Bytes) (hf : s.length < fuel)
    (hs : s.getLast? ≠ some cr) :
    (splitFrom fuel seen s = none ∧ takeBlock (· = []) (contents cur s) = none) ∨
      ∃ found p, splitFrom fuel seen s = some found ∧ Splits seen s cur found p := by
  induction fuel generalizing seen s cur with
  | zero => omega
  | succ fuel ih =>
    rw [splitFrom]
    by_cases hne : s = []
    · rw [if_pos hne,hne]
      exact .inl ⟨rfl,rfl⟩
    rw [if_neg hne]
    dsimp only
    rcases lineEnding_cases hne hs with ⟨hzero,c,rest,rfl,hc,hl⟩ | ⟨hpos,hwidth,hends⟩
    · rw [hzero,if_neg (by decide),if_pos rfl]
      have hrest : rest.getLast? ≠ some cr := by
        by_cases hnil : rest = []
        · simp [hnil]
        · rwa [← getLast?_drop (s := c :: rest) (n := 1) hnil] at hs
      rw [contents_other hc hl]
      rw [List.length_cons] at hf
      rcases ih (seen ++ [c]) (cur ++ [c]) (by omega) hrest with hnone | ⟨found,p,hfound,hsplits⟩
      · exact .inl hnone
      · exact .inr ⟨found,c :: p,hfound,hsplits.other hc hl⟩
    · rw [if_neg (by omega),if_neg (by omega),hends.contents_eq]
      by_cases hnil : s.drop (lineEnding s).toNat = []
      · rw [if_pos hnil,hnil]
        exact .inl ⟨rfl,rfl⟩
      rw [if_neg hnil]
      have hlast : (s.drop (lineEnding s).toNat).getLast? ≠ some cr := by
        rwa [getLast?_drop hnil]
      rcases lineEnding_cases hnil hlast with ⟨hzero,c,rest,hrest,hc,hl⟩ | ⟨hpos',hwidth',hends'⟩
      · rw [hzero,if_neg (by decide),if_neg (by decide)]
        have hhead : (s.drop (lineEnding s).toNat).head? = some c := by
          rw [hrest]
          rfl
        have hshort : (s.drop (lineEnding s).toNat).length < fuel := by
          have hlen := List.length_pos_iff.mpr hne
          rw [List.length_drop]
          omega
        rcases ih (seen ++ s.take (lineEnding s).toNat) [] hshort hlast with ⟨hnone,hblock⟩
          | ⟨found,p,hfound,hsplits⟩
        · refine .inl ⟨hnone,?_⟩
          rw [takeBlock_cons (fun x rest => contents_ordinary hhead hc hl),hblock]
          rfl
        · obtain ⟨p,hp⟩ := hsplits.ending cur hends hhead hc hl
          exact .inr ⟨found,p,hfound,hp⟩
      · rw [if_neg (by omega),if_pos (by omega)]
        have hdrop : seen.length+(lineEnding s).toNat+(lineEnding
          (s.drop (lineEnding s).toNat)).toNat-seen.length =
            (lineEnding s).toNat+(lineEnding (s.drop (lineEnding s).toNat)).toNat := by omega
        refine .inr ⟨_,[],rfl,by simp,List.nil_prefix,?_,by dsimp only; omega,
          s.drop (lineEnding s).toNat,List.drop_suffix _ _,?_⟩
        · rw [hends.contents_eq,hends'.contents_eq,hdrop,← List.drop_drop]
          rfl
        · rw [hdrop,← List.drop_drop]
          exact hends'

lemma splitOn_ending {s next cur tail : Bytes} (hends : Ends s next) (hcur : lf ∉ cur)
    (htail : tail.splitOn lf = contents [] next ++ [(cutLines [] next).2]) :
    (cur ++ lf :: tail).splitOn lf = contents cur s ++ [(cutLines cur s).2] := by
  obtain ⟨b,hb⟩ := hends.cutLines_eq cur
  rw [List.splitOn_append_cons_self_of_not_mem hcur,htail,hends.contents_eq,hb]
  rfl

/-- The lines of a frame with their endings rewritten, after some bytes of the first. -/
lemma splitOn_replaced (frame : Bytes) {cur : Bytes} (hcur : lf ∉ cur) :
    (cur ++ replaceCR (replaceCRLF frame)).splitOn lf = contents cur frame ++
    [(cutLines cur frame).2] := by
  induction frame using replaceCRLF.induct generalizing cur with
  | case1 =>
    change (cur ++ []).splitOn lf = [cur]
    rw [List.append_nil,List.splitOn_eq_singleton hcur]
  | case2 =>
    have hends : Ends [cr] [] := .byCR (by simp)
    exact splitOn_ending hends hcur rfl
  | case3 rest ih =>
    have hreplace : replaceCR (replaceCRLF (cr :: lf :: rest)) = lf :: replaceCR
      (replaceCRLF rest) := by
      rw [replaceCRLF,if_pos rfl]
      rfl
    rw [hreplace]
    apply splitOn_ending (.byCRLF rest) hcur
    exact ih (List.not_mem_nil)
  | case4 d rest hd ih =>
    have hreplace : replaceCR (replaceCRLF (cr :: d :: rest)) = lf :: replaceCR
      (replaceCRLF (d :: rest)) := by
      rw [replaceCRLF,if_pos rfl]
      simp only [hd,if_false,replaceCR,List.map_cons,if_true]
    rw [hreplace]
    apply splitOn_ending (.byCR (by simpa using hd)) hcur
    exact ih (List.not_mem_nil)
  | case5 c rest hc ih =>
    have hreplace : replaceCR (replaceCRLF (c :: rest)) = c :: replaceCR (replaceCRLF rest) := by
      rw [replaceCRLF.eq_def]
      simp only [hc,if_false,replaceCR,List.map_cons]
    rw [hreplace]
    by_cases hl : c = lf
    · rw [hl]
      apply splitOn_ending (.byLF rest) hcur
      exact ih (List.not_mem_nil)
    · have hcur' : lf ∉ cur ++ [c] := by
        simp only [List.mem_append,List.mem_singleton,not_or]
        exact ⟨hcur,fun h => hl h.symm⟩
      have hrest := ih hcur'
      rw [List.append_assoc,List.singleton_append] at hrest
      rw [contents_other hc hl,cutLines_other hc hl,hrest]

lemma frameLines_eq (frame : Bytes) :
    frameLines frame = contents [] frame ++ [(cutLines [] frame).2] :=
  splitOn_replaced frame List.not_mem_nil

/-- A last CR is a line ending, with or without an LF after it. -/
lemma contents_complete {b : Bytes} (cur : Bytes) (h : b.getLast? = some cr) :
    contents cur (b ++ [lf]) = contents cur b := by
  induction b using scanCR.induct generalizing cur with
  | case1 => cases h
  | case2 => rfl
  | case3 rest ih =>
    have hends : Ends (cr :: lf :: rest) rest := .byCRLF rest
    have hends' : Ends (cr :: lf :: (rest ++ [lf])) (rest ++ [lf]) := .byCRLF _
    cases rest with
    | nil => exact absurd h (by decide)
    | cons d rest =>
      rw [hends.contents_eq,List.cons_append,List.cons_append,hends'.contents_eq]
      rw [ih [] (by simpa using h)]
  | case4 d rest hd ih =>
    have hends : Ends (cr :: d :: rest) (d :: rest) := .byCR (by simpa using hd)
    have hends' : Ends (cr :: (d :: rest ++ [lf])) (d :: rest ++ [lf]) := .byCR (by simpa using hd)
    rw [hends.contents_eq,List.cons_append,hends'.contents_eq]
    rw [ih [] (by simpa using h)]
  | case5 c rest hc ih =>
    cases rest with
    | nil => exact absurd h (by simpa using hc)
    | cons d rest =>
      have hlast : (d :: rest).getLast? = some cr := by simpa using h
      by_cases hl : c = lf
      · have hends : Ends (c :: d :: rest) (d :: rest) := hl ▸ .byLF _
        have hends' : Ends (c :: (d :: rest ++ [lf])) (d :: rest ++ [lf]) := hl ▸ .byLF _
        rw [hends.contents_eq,List.cons_append,hends'.contents_eq,ih [] hlast]
      · rw [List.cons_append,contents_other hc hl,contents_other hc hl,ih _ hlast]

lemma contents_completed (b : Bytes) : contents [] (completed b) = contents [] b := by
  unfold completed
  split_ifs with h
  · exact contents_complete [] h
  · rfl

lemma completed_getLast? (b : Bytes) : (completed b).getLast? ≠ some cr := by
  unfold completed
  split_ifs with h
  · rw [List.getLast?_concat]
    decide
  · exact h

/-- What is left after a frame does not depend on the added LF. -/
lemma contents_drop_completed {b t : Bytes} {n : ℕ} (hsuffix : t <:+ completed b)
    (ht : Ends t ((completed b).drop n)) :
    contents [] ((completed b).drop n) = contents [] (b.drop n) := by
  unfold completed at hsuffix ht ⊢
  by_cases hlast : b.getLast? = some cr
  · rw [if_pos hlast] at hsuffix ht ⊢
    by_cases hn : n < b.length
    · have hne : b.drop n ≠ [] := by simpa using hn
      rw [List.drop_append_of_le_length hn.le]
      apply contents_complete
      rwa [getLast?_drop hne]
    by_cases hn' : n = b.length
    · exfalso
      rw [hn',List.drop_left] at ht
      obtain ⟨r,hr⟩ := hsuffix
      have hcut : ∀ x : Bytes, r ++ x ++ [lf] ++ [lf] = b ++ [lf] → False := by
        intro x hx
        rw [← List.append_cancel_right hx,List.getLast?_concat] at hlast
        exact absurd hlast (by decide)
      cases ht with
      | byLF => exact hcut [] (by simpa using hr)
      | byCRLF => exact hcut [cr] (by simpa using hr)
      | byCR h => exact h rfl
    · have hlong : b.length+1 ≤ n := by omega
      rw [List.drop_eq_nil_of_le (by simpa using hlong),List.drop_eq_nil_of_le (by omega)]
  · rw [if_neg hlast]

/-- The frames of a body are the blocks of its lines. -/
lemma wholeFrames_blocks {fuel : ℕ} {b : Bytes} (hf : b.length < fuel) :
    (wholeFrames fuel b).map frameLines = gather (· = []) [] (contents [] b) := by
  induction fuel generalizing b with
  | zero => omega
  | succ fuel ih =>
    rw [wholeFrames,gather_nil,splitFrame,← contents_completed b]
    rcases splitFrom_spec [] [] (Nat.lt_succ_self (completed b).length) (completed_getLast? b) with
      ⟨hnone,hblock⟩ | ⟨⟨frame,size⟩,p,hfound,hsplits⟩
    · rw [hnone,hblock]
      rfl
    · obtain ⟨hframe,_,hblock,hsize,t,ht,hends⟩ := hsplits
      obtain rfl : frame = p := hframe
      rw [List.length_nil,Nat.sub_zero] at hblock hends
      have hrest := contents_drop_completed ht hends
      have hne : b ≠ [] := by
        rintro rfl
        simp [completed,contents,cutLines,takeBlock] at hblock
      have hlen := List.length_pos_iff.mpr hne
      rw [hfound,hblock,hrest]
      simp only [List.map_cons]
      rw [ih (by rw [List.length_drop]; simp only [List.length_nil] at hsize; omega),frameLines_eq]

end Manvi.Transport
