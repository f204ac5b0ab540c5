import Manvi.Render.Wrap

/-! What a wrapped line is: rows within the width that keep the text. -/
namespace Manvi.Render
open Manvi.Encoding.Runes

section cells
variable {σ : Type} (mark : ℤ → Bool)

/-- The characters of a line, each with its style. -/
def cells (l : Line σ) : List (Char × σ) := l.flatMap (fun s => s.text.map (fun c => (c,s.style)))

def cellsWidth (r : List (Char × σ)) : ℕ := (r.map (fun c => charWidth mark c.1)).sum

/-- Characters that are white space. -/
def White (r : List (Char × σ)) : Prop := ∀ c ∈ r, isSpace c.1 = true

/-- How a stretch of text becomes a row: white space is left out behind it, and as long as the row
takes no column. -/
inductive Laid : List (Char × σ) → List (Char × σ) → Prop where
  | body (row rest : List (Char × σ)) (hrest : White rest) : Laid (row ++ rest) row
  | keep {text row : List (Char × σ)} (c : Char × σ) (hc : charWidth mark c.1 = 0)
      (h : Laid text row) : Laid (c :: text) (c :: row)
  | drop {text row : List (Char × σ)} (c : Char × σ) (hc : isSpace c.1 = true) (h : Laid text row) :
      Laid (c :: text) row

/-- A row has room in the width, or holds one character that is wider, and nothing else that takes a
column. -/
def Fits (width : ℕ) (r : List (Char × σ)) : Prop := cellsWidth mark r ≤ width
  ∨ ∃ u c v, r = u ++ c :: v ∧ width < charWidth mark c.1 ∧ cellsWidth mark u = 0 ∧
  cellsWidth mark v = 0

variable {mark}

@[simp] lemma cells_append (l l' : Line σ) : cells (l ++ l') = cells l ++ cells l' :=
    List.flatMap_append ..

@[simp] lemma cells_single (text : List Char) (style : σ) :
    cells [(⟨text,style⟩ : Span σ)] = text.map (fun c => (c,style)) := by
  rw [cells,List.flatMap_cons,List.flatMap_nil,List.append_nil]

lemma cells_push (l : Line σ) (text : List Char) (style : σ) :
    cells (l.push text style) = cells l ++ text.map (fun c => (c,style)) := by
  rw [Line.push]
  split
  · rename_i h
    rw [h,List.map_nil,List.append_nil]
  · rw [cells_append,cells_single]

@[simp] lemma cellsWidth_append (r r' : List (Char × σ)) :
    cellsWidth mark (r ++ r') = cellsWidth mark r+cellsWidth mark r' := by
  rw [cellsWidth,List.map_append,List.sum_append,cellsWidth,cellsWidth]

@[simp] lemma cellsWidth_cons (c : Char × σ) (r : List (Char × σ)) :
    cellsWidth mark (c :: r) = charWidth mark c.1+cellsWidth mark r := by
  rw [cellsWidth,List.map_cons,List.sum_cons,cellsWidth]

lemma cellsWidth_styled (text : List Char) (style : σ) :
    cellsWidth mark (text.map (fun c => (c,style))) = stringWidth mark text := by
  rw [cellsWidth,List.map_map,stringWidth]
  rfl

lemma width_cells (l : Line σ) : l.width mark = cellsWidth mark (cells l) := by
  induction l with
  | nil => rfl
  | cons s l ih =>
    have hcells : cells (s :: l) = s.text.map (fun c => (c,s.style)) ++ cells l :=
      List.flatMap_cons ..
    rw [hcells,cellsWidth_append,cellsWidth_styled,← ih,Line.width,List.map_cons,List.sum_cons,
      Line.width]

lemma White.append {r r' : List (Char × σ)} (h : White r) (h' : White r') : White (r ++ r') := by
  intro c hc
  obtain hc | hc := List.mem_append.mp hc
  · exact h c hc
  · exact h' c hc

end cells

section laid
variable {σ : Type} {mark : ℤ → Bool} {text row w : List (Char × σ)}

lemma Laid.refl (row : List (Char × σ)) : Laid mark row row := by
  have h := @Laid.body σ mark row [] (fun c hc => (by cases hc))
  rwa [List.append_nil] at h

lemma Laid.more (h : Laid mark text row) (hw : White w) : Laid mark (text ++ w) row := by
  induction h with
  | body row rest hrest =>
    rw [List.append_assoc]
    exact .body row _ (hrest.append hw)
  | keep c hc _ ih => exact .keep c hc ih
  | drop c hc _ ih => exact .drop c hc ih

/-- What becomes white space is white space. -/
lemma Laid.white (h : Laid mark text row) (hrow : White row) : White text := by
  induction h with
  | body row rest hrest => exact hrow.append hrest
  | keep c hc _ ih =>
    obtain ⟨hfirst,hrest⟩ := List.forall_mem_cons.mp hrow
    exact List.forall_mem_cons.mpr ⟨hfirst,ih hrest⟩
  | drop c hc _ ih => exact List.forall_mem_cons.mpr ⟨hc,ih hrow⟩

/-- White space at the end of a row may be left out too. -/
lemma Laid.trim {row' : List (Char × σ)} (h : Laid mark text row) (heq : row = row' ++ w)
    (hw : White w) : Laid mark text row' := by
  induction h generalizing row' with
  | body row rest hrest =>
    rw [heq,List.append_assoc]
    exact .body row' _ (hw.append hrest)
  | @keep text row c hc h ih => cases row' with
    | nil =>
      have hall : White (c :: row) := by
        rw [heq]
        exact hw
      have htext := (Laid.keep c hc h).white hall
      exact .body [] _ htext
    | cons d row' =>
      obtain ⟨hhead,htail⟩ := List.cons.inj heq
      rw [← hhead]
      exact .keep c hc (ih htail)
  | drop c hc h ih => exact .drop c hc (ih heq)

variable (mark) in
/-- A row that takes no column yet: white space may still be left out. -/
def Bare (text row : List (Char × σ)) : Prop :=
  ∀ text' row', Laid mark text' row' → Laid mark (text ++ text') (row ++ row')

variable (mark) in
/-- A row in hand. -/
structure Open (text row : List (Char × σ)) : Prop where
  laid : ∀ v, Laid mark (text ++ v) (row ++ v)
  bare : cellsWidth mark row = 0 → Bare mark text row

lemma Open.nil : Open mark ([] : List (Char × σ)) [] := ⟨fun v => .refl v,fun _ _ _ h => h⟩

lemma Bare.push (h : Bare mark text row) {v : List (Char × σ)} (hv : cellsWidth mark v = 0) :
    Bare mark (text ++ v) (row ++ v) := by
  intro text' row' hlaid
  rw [List.append_assoc,List.append_assoc]
  refine h _ _ ?_
  induction v with
  | nil => exact hlaid
  | cons c v ih =>
    rw [cellsWidth_cons] at hv
    exact .keep c (by omega) (ih (by omega))

lemma Open.push (h : Open mark text row) (v : List (Char × σ)) :
    Open mark (text ++ v) (row ++ v) := by
  refine ⟨fun v' => ?_,fun hzero => ?_⟩
  · rw [List.append_assoc,List.append_assoc]
    exact h.laid _
  · rw [cellsWidth_append] at hzero
    exact (h.bare (by omega)).push (by omega)

/-- White space before anything that takes a column is left out. -/
lemma Open.skip (h : Open mark text row) (hzero : cellsWidth mark row = 0) (hw : White w) :
    Open mark (text ++ w) row := by
  have hbare : Bare mark (text ++ w) row := by
    intro text' row' hlaid
    rw [List.append_assoc]
    refine h.bare hzero _ _ ?_
    induction w with
    | nil => exact hlaid
    | cons c w ih =>
      obtain ⟨hc,hrest⟩ := List.forall_mem_cons.mp hw
      exact .drop c hc (ih hrest)
  exact ⟨fun v => hbare v v (.refl v),fun _ => hbare⟩

lemma Open.closed (h : Open mark text row) : Laid mark text row := by
  have hlaid := h.laid []
  rwa [List.append_nil,List.append_nil] at hlaid

end laid

section words
variable {σ : Type} {mark : ℤ → Bool}

lemma splitFrom_flatten (inSpace : Bool) (word rest : List Char) :
    (splitFrom inSpace word rest).flatten = word ++ rest := by
  induction rest generalizing inSpace word with
  | nil => simp [splitFrom]
  | cons c rest ih =>
    rw [splitFrom]
    split
    · rw [List.flatten_cons,ih,List.singleton_append]
    · rw [ih,List.append_assoc,List.singleton_append]

lemma splitKeepSpace_flatten (text : List Char) : (splitKeepSpace text).flatten = text := by
  cases text with
  | nil => rfl
  | cons c rest => exact splitFrom_flatten (blank c) [] (c :: rest)

lemma white_of_trimSpace {word : List Char} (h : trimSpace word = []) (style : σ) :
    White (word.map (fun c => (c,style))) := by
  obtain ⟨a,b,hsplit,ha,hb⟩ := trimSpace_split word
  rw [h,List.append_nil] at hsplit
  intro c hc
  obtain ⟨d,hd,rfl⟩ := List.mem_map.mp hc
  rw [hsplit] at hd
  obtain hd | hd := List.mem_append.mp hd
  · exact List.all_eq_true.mp ha d hd
  · exact List.all_eq_true.mp hb d hd

/-- What of a word is put on a row when it is broken. -/
def head (mark : ℤ → Bool) (width : ℕ) (word : List Char) : List Char :=
  if fitting mark width 0 word = [] then word.take 1 else fitting mark width 0 word

lemma fitting_take (width used : ℕ) (word : List Char) :
    fitting mark width used word = word.take (fitting mark width used word).length := by
  induction word generalizing used with
  | nil => rfl
  | cons r rest ih =>
    rw [fitting]
    split
    · rfl
    · rw [List.length_cons,List.take_succ_cons,← ih]

lemma fitting_width {width used : ℕ} (word : List Char) (h : used ≤ width) :
    used+stringWidth mark (fitting mark width used word) ≤ width := by
  induction word generalizing used with
  | nil => exact h
  | cons r rest ih =>
    rw [fitting]
    split
    · exact h
    · rename_i hfit
      have hrest := ih (Nat.le_of_not_lt hfit)
      rw [stringWidth_cons]
      omega

lemma scanFrom_started {width i : ℕ} (cols : ℕ) (word : List Char) (hi : 0 < i) :
    scanFrom mark width i cols word = (i+(fitting mark width cols word).length,
      cols+stringWidth mark (fitting mark width cols word)) := by
  induction word generalizing i cols with
  | nil => rfl
  | cons r rest ih =>
    rw [scanFrom,fitting]
    split
    · rw [if_neg (by omega)]
      rfl
    · rw [ih _ (Nat.succ_pos i),List.length_cons,stringWidth_cons]
      congr 1
      · omega
      · omega

/-- The scan of a word measures what is put on the row. -/
lemma hardBreak_eq {width : ℕ} {word : List Char} (h : word ≠ []) :
    hardBreak mark word width = ((head mark width word).length,
    stringWidth mark (head mark width word)) := by
  cases word with
  | nil => exact absurd rfl h
  | cons r rest =>
    rw [hardBreak,scanFrom,head,fitting]
    split
    · rw [if_pos rfl,if_pos rfl,List.take_succ_cons,List.take_zero,stringWidth_cons,stringWidth_nil]
      rfl
    · rw [if_neg (List.cons_ne_nil _ _),scanFrom_started _ _ (Nat.succ_pos 0),List.length_cons,
        stringWidth_cons]
      congr 1
      · omega
      · omega

/-- Truncating a word that is too long leaves the same. -/
lemma truncateWidth_head {width : ℕ} {word : List Char} (hw : 1 ≤ width)
    (hlong : width < stringWidth mark word) :
    (if truncateWidth mark word width [] = [] then
      word.take 1 else truncateWidth mark word width []) = head mark width word := by
  have htrunc : truncateWidth mark word width [] = fitting mark width 0 word := by
    rw [truncateWidth,if_neg (by omega),if_neg (by omega),stringWidth_nil,Nat.sub_zero,
      List.append_nil]
  rw [htrunc,head]

lemma head_spec {width : ℕ} {word : List Char} (h : word ≠ []) :
    word = head mark width word ++ word.drop (head mark width word).length
    ∧ head mark width word ≠ [] ∧ (stringWidth mark (head mark width word) ≤ width
      ∨ ∃ c, head mark width word = [c] ∧ width < charWidth mark c) := by
  obtain ⟨r,rest,rfl⟩ := List.exists_cons_of_ne_nil h
  rw [head]
  by_cases hfit : fitting mark width 0 (r :: rest) = []
  · rw [if_pos hfit]
    refine ⟨rfl,by simp,Or.inr ⟨r,rfl,?_⟩⟩
    rw [fitting] at hfit
    split at hfit
    · omega
    · cases hfit
  · rw [if_neg hfit]
    refine ⟨?_,hfit,Or.inl ?_⟩
    · have htake := @fitting_take mark width 0 (r :: rest)
      have hboth := List.take_append_drop (fitting mark width 0 (r :: rest)).length (r :: rest)
      rw [← htake] at hboth
      exact hboth.symm
    · have hle := @fitting_width mark width 0 (r :: rest) (Nat.zero_le _)
      omega

/-- Measuring at every cut and carrying the width down give the same. -/
lemma breakMeasured_eq {width : ℕ} (hw : 1 ≤ width) (style : σ) (fuel : ℕ) (s : Rows σ)
    (word : List Char) :
    breakMeasured mark width style fuel s word = breakWord mark width style fuel s word
    (stringWidth mark word) := by
  induction fuel generalizing s word with
  | zero => rfl
  | succ fuel ih =>
    rw [breakMeasured,breakWord]
    split
    · rename_i hlong
      have hne : word ≠ [] := by
        rintro rfl
        exact absurd hlong (Nat.not_lt_zero _)
      obtain ⟨hsplit,-,-⟩ := @head_spec mark width word hne
      have htake : word.take (head mark width word).length = head mark width word := by
        nth_rewrite 2 [hsplit]
        rw [List.take_left]
      have hrest : stringWidth mark word-stringWidth mark (head mark width word) = stringWidth mark
        (word.drop (head mark width word).length) := by
        nth_rewrite 1 [hsplit]
        rw [stringWidth_append]
        omega
      dsimp only
      rw [truncateWidth_head hw hlong,hardBreak_eq hne,ih]
      dsimp only
      rw [htake,hrest]
    · rfl

end words

section run
variable {σ : Type} {mark : ℤ → Bool} {width : ℕ} {done : List (Char × σ)} {s : Rows σ}

variable (mark) in
/-- The rows so far hold the text so far, and what is in hand has room in a row. -/
structure Inv (width : ℕ) (done : List (Char × σ)) (s : Rows σ) : Prop where
  curWidth : s.curWidth = cellsWidth mark (cells s.cur)
  pendingWidth : s.pendingWidth = cellsWidth mark (cells s.pending)
  room : s.curWidth+s.pendingWidth ≤ width
  fits : ∀ row ∈ s.out, Fits mark width (cells row)
  text : ∃ stretches rest, done = stretches.flatten ++ rest ++ cells s.pending
    ∧ List.Forall₂ (fun text row => Laid mark text (cells row)) stretches s.out ∧
    Open mark rest (cells s.cur)

lemma Inv.start : Inv mark width [] (⟨[],[],0,[],0⟩ : Rows σ) :=
  ⟨rfl,rfl,Nat.zero_le _,fun _ h => (by cases h),[],[],rfl,.nil,.nil⟩

lemma Inv.flushWord (h : Inv mark width done s) : Inv mark width done s.flushWord := by
  obtain ⟨stretches,rest,hdone,hlaid,hopen⟩ := h.text
  refine ⟨?_,rfl,?_,h.fits,stretches,rest ++ cells s.pending,?_,hlaid,?_⟩
  · rw [Rows.flushWord,cells_append,cellsWidth_append,h.curWidth,h.pendingWidth]
  · exact h.room
  · rw [hdone]
    simp [Rows.flushWord,cells]
  · rw [Rows.flushWord,cells_append]
    exact hopen.push _

/-- A row is closed, and the word in hand moves down. -/
lemma Inv.breakLine (h : Inv mark width done s) : Inv mark width done s.breakLine := by
  obtain ⟨stretches,rest,hdone,hlaid,hopen⟩ := h.text
  have hroom := h.room
  have hcur := h.curWidth
  refine ⟨rfl,h.pendingWidth,by simp only [Rows.breakLine]; omega,?_,stretches ++ [rest],[],?_,
    ?_,.nil⟩
  · intro row hrow
    obtain hrow | hrow := List.mem_append.mp hrow
    · exact h.fits row hrow
    · rw [List.mem_singleton.mp hrow]
      exact Or.inl (by omega)
  · rw [hdone]
    simp [Rows.breakLine]
  · exact List.rel_append hlaid (.cons hopen.closed .nil)

/-- A row is closed behind more of the text. -/
lemma Inv.close (h : Inv mark width done s) (hnone : s.pending = []) {x : List (Char × σ)}
    {row : Line σ}
    (hlaid : ∀ rest, Open mark rest (cells s.cur) → Laid mark (rest ++ x) (cells row))
    (hfits : Fits mark width (cells row)) :
    Inv mark width (done ++ x) ⟨s.out ++ [row],[],0,s.pending,s.pendingWidth⟩ := by
  obtain ⟨stretches,rest,hdone,hrows,hopen⟩ := h.text
  have hroom := h.room
  refine ⟨rfl,h.pendingWidth,by simp only; omega,?_,stretches ++ [rest ++ x],[],?_,?_,.nil⟩
  · intro row' hrow
    obtain hrow | hrow := List.mem_append.mp hrow
    · exact h.fits row' hrow
    · rwa [List.mem_singleton.mp hrow]
  · rw [hdone,hnone]
    simp [cells]
  · exact List.rel_append hrows (.cons (hlaid rest hopen) .nil)

lemma Inv.skip (h : Inv mark width done s) (hnone : s.pending = []) (hzero : s.curWidth = 0)
    {x : List (Char × σ)} (hx : White x) :
    Inv mark width (done ++ x) s := by
  obtain ⟨stretches,rest,hdone,hrows,hopen⟩ := h.text
  have hcur := h.curWidth
  refine ⟨h.curWidth,h.pendingWidth,h.room,h.fits,stretches,rest ++ x,?_,hrows,
    hopen.skip (by omega) hx⟩
  rw [hdone,hnone]
  simp [cells]

lemma Inv.pushCur (h : Inv mark width done s) (hnone : s.pending = []) {word : List Char}
    (style : σ)
    (hroom : s.curWidth+s.pendingWidth+stringWidth mark word ≤ width) :
    Inv mark width (done ++ word.map (fun c => (c,style))) {s with
      cur := s.cur.push word style, curWidth := s.curWidth+stringWidth mark word} := by
  obtain ⟨stretches,rest,hdone,hrows,hopen⟩ := h.text
  refine ⟨?_,h.pendingWidth,by simp only; omega,h.fits,stretches,
    rest ++ word.map (fun c => (c,style)),?_,hrows,?_⟩
  · rw [cells_push,cellsWidth_append,cellsWidth_styled,h.curWidth]
  · rw [hdone,hnone]
    simp [cells]
  · rw [cells_push]
    exact hopen.push _

lemma Inv.pushPending (h : Inv mark width done s) {word : List Char} (style : σ)
    (hroom : s.curWidth+s.pendingWidth+stringWidth mark word ≤ width) :
    Inv mark width (done ++ word.map (fun c => (c,style)))
      {s with pending := s.pending.push word style, pendingWidth := s.pendingWidth+stringWidth mark word} := by
  obtain ⟨stretches,rest,hdone,hrows,hopen⟩ := h.text
  refine ⟨h.curWidth,?_,by simp only; omega,h.fits,stretches,rest,?_,hrows,hopen⟩
  · rw [cells_push,cellsWidth_append,cellsWidth_styled,h.pendingWidth]
  · rw [hdone,cells_push]
    simp only [List.append_assoc]

/-- One cut of a word that is too long: what fits goes into a row, and the rest is shorter. -/
lemma breakWord_long (style : σ) {fuel : ℕ} {word : List Char} (hfuel : word.length ≤ fuel+1)
    (hlong : width < stringWidth mark word) : ∃ front back, word = front ++ back ∧
    back.length ≤ fuel ∧
      (stringWidth mark front ≤ width ∨ ∃ c, front = [c] ∧ width < charWidth mark c) ∧
      ∀ s : Rows σ, breakWord mark width style (fuel+1) s word (stringWidth mark word) =
        breakWord mark width style fuel ({s with
          cur := s.cur.push front style} : Rows σ).breakLine back (stringWidth mark back) := by
  have hne : word ≠ [] := by
    rintro rfl
    exact absurd hlong (Nat.not_lt_zero _)
  obtain ⟨hsplit,hhead,hwide⟩ := @head_spec mark width word hne
  have hpos := List.length_pos_iff.mpr hhead
  refine ⟨head mark width word,word.drop (head mark width word).length,hsplit,?_,hwide,fun s => ?_⟩
  · rw [List.length_drop]
    omega
  · have htake := congrArg (List.take (head mark width word).length) hsplit
    have hwidth := congrArg (stringWidth mark) hsplit
    rw [List.take_left] at htake
    rw [stringWidth_append] at hwidth
    have hrest : stringWidth mark word-stringWidth mark (head mark width word) =
        stringWidth mark (word.drop (head mark width word).length) := by omega
    rw [breakWord,if_pos hlong,hardBreak_eq hne]
    dsimp only
    rw [htake,hrest]

/-- Breaking a word ends with a rest that has room in a row, with the rest's own width. -/
lemma breakWord_spec (style : σ) (fuel : ℕ) {word : List Char} (hfuel : word.length ≤ fuel)
    (h : Inv mark width done s)
    (hnone : s.pending = []) (hzero : s.curWidth = 0) : ∃ s' front back, word = front ++ back ∧
      breakWord mark width style fuel s word (stringWidth mark word) = (s',back,
        stringWidth mark back) ∧ stringWidth mark back ≤ width
      ∧ Inv mark width (done ++ front.map (fun c => (c,style))) s' ∧ s'.pending = [] ∧
      s'.curWidth = 0 := by
  induction fuel generalizing word done s with
  | zero =>
    obtain rfl := List.length_eq_zero_iff.mp (Nat.le_zero.mp hfuel)
    refine ⟨s,[],[],rfl,rfl,Nat.zero_le _,?_,hnone,hzero⟩
    rwa [List.map_nil,List.append_nil]
  | succ fuel ih =>
    by_cases hlong : width < stringWidth mark word
    · obtain ⟨front,rest,hsplit,hless,hwide,hcut⟩ := breakWord_long style hfuel hlong
      have hcur := h.curWidth
      have hclosed : Inv mark width (done ++ front.map (fun c => (c,style)))
          ({s with cur := s.cur.push front style} : Rows σ).breakLine := by
        refine h.close hnone (fun rest hopen => ?_) ?_
        · rw [cells_push]
          exact (hopen.push _).closed
        · rw [cells_push]
          obtain hle | ⟨c,hc,hover⟩ := hwide
          · refine Or.inl ?_
            rw [cellsWidth_append,cellsWidth_styled]
            omega
          · refine Or.inr ⟨cells s.cur,(c,style),[],?_,hover,by omega,rfl⟩
            rw [hc]
            rfl
      obtain ⟨s',front',back,hback,hres,hle,hinv,hpend,hcur'⟩ := ih hless hclosed hnone rfl
      refine ⟨s',front ++ front',back,?_,(hcut s).trans hres,hle,?_,hpend,hcur'⟩
      · rw [List.append_assoc,← hback]
        exact hsplit
      · rw [List.map_append,← List.append_assoc]
        exact hinv
    · rw [breakWord,if_neg hlong]
      refine ⟨s,[],word,rfl,rfl,by omega,?_,hnone,hzero⟩
      rwa [List.map_nil,List.append_nil]

variable (mark) in
/-- How a long word is broken. -/
def carried (width : ℕ) (style : σ) (s : Rows σ) (word : List Char) : Rows σ × List Char × ℕ :=
  breakWord mark width style word.length s word (stringWidth mark word)

lemma wrapWord_spec (style : σ) (word : List Char) (h : Inv mark width done s) :
    Inv mark width (done ++ word.map (fun c => (c,style)))
    (wrapWord mark (carried mark width) width style s word) := by
  have hflush := h.flushWord
  have hnone : s.flushWord.pending = [] := rfl
  have hpend0 : s.flushWord.pendingWidth = 0 := rfl
  rw [wrapWord]
  dsimp only
  split
  · rename_i hspace
    have hwhite : White (word.map (fun c => (c,style))) := white_of_trimSpace hspace.1 style
    split
    · rename_i hroom
      exact hflush.pushCur hnone style (by omega)
    split
    · refine hflush.close hnone (fun rest hopen => hopen.closed.more hwhite) (Or.inl ?_)
      have hroom := hflush.room
      have hcur := hflush.curWidth
      omega
    · exact hflush.skip hnone (by omega) hwhite
  · -- what is left of the word after it was broken has room in a row of its own
    have hbroken : ∃ s' front back, word = front ++ back
        ∧ (if width < s.pendingWidth+stringWidth mark word then
            carried mark width style (if 0 < s.flushWord.curWidth then s.flushWord.breakLine
              else s.flushWord) word
          else (s,word,stringWidth mark word)) = (s',back,stringWidth mark back)
        ∧ s'.pendingWidth+stringWidth mark back ≤ width ∧
        Inv mark width (done ++ front.map (fun c => (c,style))) s' := by
      split
      · have hstart : Inv mark width done (if 0 < s.flushWord.curWidth then s.flushWord.breakLine
          else s.flushWord) := by
          split
          · exact hflush.breakLine
          · exact hflush
        have hempty : (if 0 < s.flushWord.curWidth then s.flushWord.breakLine
          else s.flushWord).pending = [] := by
          split
          · rfl
          · rfl
        have hzero : (if 0 < s.flushWord.curWidth then s.flushWord.breakLine
          else s.flushWord).curWidth = 0 := by
          split
          · rfl
          · omega
        obtain ⟨s',front,back,hword,hres,hle,hinv,hpend,-⟩ :=
          breakWord_spec style word.length (Nat.le_refl _) hstart hempty hzero
        refine ⟨s',front,back,hword,hres,?_,hinv⟩
        rw [hinv.pendingWidth,hpend]
        exact (Nat.zero_add _).le.trans hle
      · refine ⟨s,[],word,rfl,rfl,by omega,?_⟩
        rwa [List.map_nil,List.append_nil]
    obtain ⟨s',front,back,hword,hres,hle,hinv⟩ := hbroken
    rw [hres]
    dsimp only
    have hmoved : ∃ s'', (if width < s'.curWidth+s'.pendingWidth+stringWidth mark back then
      if 0 < s'.curWidth then s'.breakLine else s' else s') = s''
        ∧ s''.curWidth+s''.pendingWidth+stringWidth mark back ≤ width ∧
        Inv mark width (done ++ front.map (fun c => (c,style))) s'' := by
      split
      · split
        · refine ⟨_,rfl,?_,hinv.breakLine⟩
          simp only [Rows.breakLine]
          omega
        · exact ⟨_,rfl,by omega,hinv⟩
      · exact ⟨_,rfl,by omega,hinv⟩
    obtain ⟨s'',heq,hroom,hinv''⟩ := hmoved
    rw [heq,hword,List.map_append,← List.append_assoc]
    split
    · exact hinv''.pushPending style hroom
    · rename_i hback
      rw [Classical.not_not.mp hback,List.map_nil,List.append_nil]
      exact hinv''

lemma wrapWords_spec (style : σ) (words : List (List Char)) (h : Inv mark width done s) :
    Inv mark width (done ++ words.flatten.map (fun c => (c,style)))
    (words.foldl (wrapWord mark (carried mark width) width style) s) := by
  induction words generalizing done s with
  | nil => rwa [List.flatten_nil,List.map_nil,List.append_nil]
  | cons word words ih =>
    rw [List.flatten_cons,List.map_append,← List.append_assoc,List.foldl_cons]
    exact ih (wrapWord_spec style word h)

lemma wrapSpans_spec (l : Line σ) (h : Inv mark width done s) : Inv mark width (done ++ cells l)
    (l.foldl (fun s span => (splitKeepSpace span.text).foldl
      (wrapWord mark (carried mark width) width span.style) s) s) := by
  induction l generalizing done s with
  | nil =>
    rw [show cells ([] : Line σ) = [] from rfl,List.append_nil]
    exact h
  | cons span l ih =>
    have hspan := wrapWords_spec span.style (splitKeepSpace span.text) h
    rw [splitKeepSpace_flatten] at hspan
    have hcells : cells (span :: l) = span.text.map (fun c => (c,span.style)) ++ cells l :=
      List.flatMap_cons ..
    rw [hcells,← List.append_assoc,List.foldl_cons]
    exact ih hspan

end run

section trimmed
variable {σ : Type} {mark : ℤ → Bool} {width : ℕ}

lemma blank_space {c : Char} (h : blank c = true) : isSpace c = true := by
  have hcases : c = ' ' ∨ c = '\t' := by simpa [blank] using h
  obtain rfl | rfl := hcases
  · decide
  · decide

lemma blank_width {c : Char} (h : blank c = true) : charWidth mark c ≤ 1 := by
  have hcases : c = ' ' ∨ c = '\t' := by simpa [blank] using h
  obtain rfl | rfl := hcases
  · exact runeWidth_low (by decide)
  · exact runeWidth_low (by decide)

lemma trimRight_split (text : List Char) :
    ∃ rest, text = trimRight text ++ rest ∧ ∀ c ∈ rest, blank c = true := by
  refine ⟨(text.reverse.takeWhile blank).reverse,?_,?_⟩
  · rw [trimRight,← List.reverse_append,List.takeWhile_append_dropWhile,List.reverse_reverse]
  · intro c hc
    exact List.mem_takeWhile_imp (List.mem_reverse.mp hc)

lemma trimBack_split (l : Line σ) : ∃ rest, cells l.reverse = cells (trimBack l).reverse ++ rest ∧
    ∀ c ∈ rest, blank c.1 = true := by
  induction l with
  | nil => exact ⟨[],rfl,fun c hc => (by cases hc)⟩
  | cons last l ih =>
    have hlast : cells (last :: l).reverse = cells l.reverse ++
      last.text.map (fun c => (c,last.style)) := by
      rw [List.reverse_cons,cells_append]
      exact congrArg _ (cells_single last.text last.style)
    obtain ⟨after,hafter,hblank⟩ := trimRight_split last.text
    rw [trimBack]
    split
    · exact ⟨[],(List.append_nil _).symm,fun c hc => (by cases hc)⟩
    split
    · rename_i hnil
      obtain ⟨rest,hrest,hall⟩ := ih
      rw [hnil,List.nil_append] at hafter
      refine ⟨rest ++ last.text.map (fun c => (c,last.style)),?_,?_⟩
      · rw [hlast,hrest,List.append_assoc]
      · intro c hc
        obtain hc | hc := List.mem_append.mp hc
        · exact hall c hc
        · obtain ⟨d,hd,rfl⟩ := List.mem_map.mp hc
          rw [hafter] at hd
          exact hblank d hd
    · refine ⟨after.map (fun c => (c,last.style)),?_,?_⟩
      · rw [hlast,List.reverse_cons,cells_append,cells_single,List.append_assoc,← List.map_append,
          ← hafter]
      · intro c hc
        obtain ⟨d,hd,rfl⟩ := List.mem_map.mp hc
        exact hblank d hd

lemma trimTrailingSpace_split (l : Line σ) :
    ∃ rest, cells l = cells (trimTrailingSpace l) ++ rest ∧ ∀ c ∈ rest, blank c.1 = true := by
  have h := trimBack_split l.reverse
  rwa [List.reverse_reverse] at h

lemma Fits.trim {r r' rest : List (Char × σ)} (hw : 1 ≤ width) (h : Fits mark width r)
    (heq : r = r' ++ rest) (hrest : ∀ c ∈ rest, blank c.1 = true) :
    Fits mark width r' := by
  obtain hle | ⟨u,c,v,hr,hc,hu,hv⟩ := h
  · rw [heq,cellsWidth_append] at hle
    exact Or.inl (by omega)
  · have hsplit : u ++ c :: v = r' ++ rest := hr.symm.trans heq
    obtain ⟨a,ha,hv'⟩ | ⟨a,ha,hrest'⟩ := List.append_eq_append_iff.mp hsplit
    · cases a with
      | nil =>
        have hmem : c ∈ rest := by
          rw [List.nil_append] at hv'
          rw [← hv']
          exact List.mem_cons_self
        have hone := @blank_width mark c.1 (hrest c hmem)
        omega
      | cons d a =>
        obtain ⟨rfl,hv''⟩ := List.cons.inj hv'
        change v = a ++ rest at hv''
        rw [hv'',cellsWidth_append] at hv
        exact Or.inr ⟨u,c,a,ha,hc,hu,by omega⟩
    · have hmem : c ∈ rest := by
        rw [hrest']
        simp
      have hone := @blank_width mark c.1 (hrest c hmem)
      omega

end trimmed

section wrapped
variable {σ : Type} {mark : ℤ → Bool} {width : ℕ}

/-- As many cuts as a word has characters are enough. -/
lemma breakWord_ends (style : σ) (fuel : ℕ) (s : Rows σ) {word : List Char}
    (hfuel : word.length ≤ fuel) :
    (breakWord mark width style fuel s word (stringWidth mark word)).2.2 ≤ width := by
  induction fuel generalizing s word with
  | zero =>
    obtain rfl := List.length_eq_zero_iff.mp (Nat.le_zero.mp hfuel)
    exact Nat.zero_le _
  | succ fuel ih =>
    by_cases hlong : width < stringWidth mark word
    · obtain ⟨front,rest,-,hless,-,hcut⟩ := breakWord_long style hfuel hlong
      rw [hcut]
      exact ih _ hless
    · rw [breakWord,if_neg hlong]
      exact Nat.le_of_not_lt hlong

/-- White space behind a text is left out behind its last row. -/
lemma laid_more {stretches : List (List (Char × σ))} {rows : List (Line σ)} {w : List (Char × σ)}
    (hw : White w) (hne : rows ≠ [])
    (h : List.Forall₂ (fun text row => Laid mark text (cells row)) stretches rows) : ∃ stretches',
      stretches'.flatten = stretches.flatten ++ w ∧
      List.Forall₂ (fun text row => Laid mark text (cells row)) stretches' rows := by
  induction h with
  | nil => exact absurd rfl hne
  | @cons text row texts rows hfirst hrest ih => cases hrest with
    | nil => exact ⟨[text ++ w],by simp,.cons (hfirst.more hw) .nil⟩
    | cons hsecond hrest =>
      obtain ⟨stretches',hflat,hrows⟩ := ih (List.cons_ne_nil _ _)
      refine ⟨text :: stretches',?_,.cons hfirst hrows⟩
      rw [List.flatten_cons,hflat,← List.append_assoc]
      rfl

/-- The rows at the end hold the whole text. -/
lemma finished {l : Line σ} {s : Rows σ} (h : Inv mark width (cells l) s) (hnone : s.pending = []) :
    ∃ stretches, stretches.flatten = cells l ∧
    List.Forall₂ (fun text row => Laid mark text (cells row)) stretches
      (if s.cur ≠ [] ∨ s.out = [] then s.out ++ [s.cur] else s.out) := by
  obtain ⟨stretches,rest,hdone,hrows,hopen⟩ := h.text
  rw [hnone,show cells ([] : Line σ) = [] from rfl,List.append_nil] at hdone
  split
  · refine ⟨stretches ++ [rest],?_,List.rel_append hrows (.cons hopen.closed .nil)⟩
    rw [hdone]
    simp
  · -- nothing is on the row in hand, so what is left of the text is white space
    rename_i hlast
    rw [not_or,not_not] at hlast
    have hlaid := hopen.closed
    rw [hlast.1] at hlaid
    have hwhite : White rest := hlaid.white (fun c hc => (by cases hc))
    obtain ⟨stretches',hflat,hrows'⟩ := laid_more hwhite hlast.2 hrows
    exact ⟨stretches',by rw [hflat,hdone],hrows'⟩

lemma finished_fits {done : List (Char × σ)} {s : Rows σ} (h : Inv mark width done s) :
    ∀ row ∈ (if s.cur ≠ [] ∨ s.out = [] then s.out ++ [s.cur] else s.out),
    Fits mark width (cells row) := by
  have hroom := h.room
  have hcur := h.curWidth
  split
  · intro row hrow
    obtain hrow | hrow := List.mem_append.mp hrow
    · exact h.fits row hrow
    · rw [List.mem_singleton.mp hrow]
      exact Or.inl (by omega)
  · exact h.fits

lemma laid_trimmed {stretches : List (List (Char × σ))} {rows : List (Line σ)}
    (h : List.Forall₂ (fun text row => Laid mark text (cells row)) stretches rows) :
    List.Forall₂ (fun text row => Laid mark text (cells row)) stretches
    (rows.map trimTrailingSpace) := by
  induction h with
  | nil => exact .nil
  | @cons text row texts rows hfirst hrest ih =>
    obtain ⟨rest,hsplit,hblank⟩ := trimTrailingSpace_split row
    exact .cons (hfirst.trim hsplit (fun c hc => blank_space (hblank c hc))) ih

lemma fits_trimmed {rows : List (Line σ)} (hw : 1 ≤ width)
    (h : ∀ row ∈ rows, Fits mark width (cells row)) :
    ∀ row ∈ rows.map trimTrailingSpace, Fits mark width (cells row) := by
  intro row hrow
  obtain ⟨row',hrow',rfl⟩ := List.mem_map.mp hrow
  obtain ⟨rest,hsplit,hblank⟩ := trimTrailingSpace_split row'
  exact (h row' hrow').trim hw hsplit hblank

lemma filter_white {w : List (Char × σ)} (h : White w) : w.filter (fun c => !isSpace c.1) = [] := by
  rw [List.filter_eq_nil_iff]
  intro c hc
  simp [h c hc]

lemma Laid.content {text row : List (Char × σ)} (h : Laid mark text row) :
    row.filter (fun c => !isSpace c.1) = text.filter (fun c => !isSpace c.1) := by
  induction h with
  | body row rest hrest => rw [List.filter_append,filter_white hrest,List.append_nil]
  | keep c hc h ih => rw [List.filter_cons,List.filter_cons,ih]
  | drop c hc h ih => rw [List.filter_cons_of_neg (by simp [hc]),ih]

lemma laid_content {stretches : List (List (Char × σ))} {rows : List (Line σ)}
    (h : List.Forall₂ (fun text row => Laid mark text (cells row)) stretches rows) :
    (rows.flatMap cells).filter (fun c => !isSpace c.1) = stretches.flatten.filter (fun c =>
      !isSpace c.1) := by
  induction h with
  | nil => rfl
  | cons hfirst hrest ih =>
    rw [List.flatMap_cons,List.filter_append,hfirst.content,ih,List.flatten_cons,List.filter_append]

lemma wrap_quadratic (hw : 1 ≤ width) (l : Line σ) :
    wrap mark l width = wrapQuadratic mark l width := by
  have hbreak : (fun (style : σ) s word => breakMeasured mark width style word.length s word) =
    carried mark width := by
    funext style s word
    exact breakMeasured_eq hw style word.length s word
  rw [wrapQuadratic,hbreak]
  rfl

lemma wrap_laid (hw : 1 ≤ width) (l : Line σ) :
    (∀ row ∈ wrap mark l width, Fits mark width (cells row))
    ∧ ∃ stretches, stretches.flatten = cells l ∧
    List.Forall₂ (fun text row => Laid mark text (cells row)) stretches (wrap mark l width) := by
  change (∀ row ∈ wrapWith mark (carried mark width) l width, _) ∧ ∃ stretches, _ ∧
    List.Forall₂ _ stretches (wrapWith mark (carried mark width) l width)
  rw [wrapWith,if_neg (by omega)]
  split
  · rename_i hshort
    rw [width_cells] at hshort
    refine ⟨fun row hrow => ?_,[cells l],by simp,.cons (.refl _) .nil⟩
    rw [List.mem_singleton.mp hrow]
    exact Or.inl hshort
  · have hspans := wrapSpans_spec l (@Inv.start σ mark width)
    rw [List.nil_append] at hspans
    have hflush := hspans.flushWord
    obtain ⟨stretches,hflat,hrows⟩ := finished hflush rfl
    exact ⟨fits_trimmed hw (finished_fits hflush),stretches,hflat,laid_trimmed hrows⟩

/-- Wrapping ends and gives the rows of the quadratic wrapper, each within the width but for one
wider character; they hold every character that is not white space, in order and with its style, and
white space is left out only behind a row or where the row takes no column yet. -/
theorem wrap_keeps {σ : Type} (mark : ℤ → Bool) (l : Line σ) {width : ℕ} (hw : 1 ≤ width) :
    (∀ style (s : Rows σ) word,
      (breakWord mark width style word.length s word (stringWidth mark word)).2.2 ≤ width)
    ∧ (∀ row ∈ wrap mark l width, Fits mark width (cells row))
    ∧ ((wrap mark l width).flatMap cells).filter (fun c => !isSpace c.1) = (cells l).filter
    (fun c => !isSpace c.1)
    ∧ (∃ stretches, stretches.flatten = cells l ∧
      List.Forall₂ (fun text row => Laid mark text (cells row)) stretches (wrap mark l width))
    ∧ wrap mark l width = wrapQuadratic mark l width := by
  obtain ⟨hfits,stretches,hflat,hrows⟩ := wrap_laid hw l
  refine ⟨fun style s word => breakWord_ends style word.length s (Nat.le_refl _),hfits,?_,
    ⟨stretches,hflat,hrows⟩,wrap_quadratic hw l⟩
  rw [laid_content hrows,hflat]

/-- A mark before two blanks and a letter. -/
def markedLine : Line Unit := [⟨['\u0301',' ',' ','x'],()⟩]

theorem wrap_keeps_marked : (∀ row ∈ wrap accents markedLine 1, Fits accents 1 (cells row)) ∧
    wrap accents markedLine 1 = wrapQuadratic accents markedLine 1 :=
  have hkeeps := wrap_keeps accents markedLine (Nat.le_refl 1)
  ⟨hkeeps.2.1,hkeeps.2.2.2.2⟩

lemma wrap_marked : wrap accents markedLine 1 = [[⟨['\u0301'],()⟩,⟨['x'],()⟩]] := by decide

/-- White space behind a mark that opens a row is left out although it is at neither end of the
row. -/
theorem not_only_ends : ¬ ∃ stretches, stretches.flatten = cells markedLine ∧
    List.Forall₂ (fun text row => ∃ before after, White before ∧ White after
    ∧ text = before ++ cells row ++ after) stretches (wrap accents markedLine 1) := by
  rintro ⟨stretches,hflat,hrows⟩
  rw [wrap_marked] at hrows
  cases hrows with
  | @cons text _ _ _ hfirst hrest => cases hrest with
    | nil =>
      obtain ⟨before,after,hbefore,-,htext⟩ := hfirst
      rw [List.flatten_cons,List.flatten_nil,List.append_nil,htext] at hflat
      cases before with
      | nil => exact absurd hflat (by simp [cells,markedLine])
      | cons c before =>
        have hc : c = ('\u0301',()) := (List.cons.inj hflat).1
        have hwhite := hbefore c List.mem_cons_self
        rw [hc] at hwhite
        exact absurd hwhite (by decide)

end wrapped
end Manvi.Render
