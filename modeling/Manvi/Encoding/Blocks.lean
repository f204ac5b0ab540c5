import Manvi.Encoding.Spans

/-! Cutting a sequence into what stands between an opening and a closing mark and what stands
outside, from the left. The marks are found by their first occurrence; what follows an opening mark
that is never closed is one piece. -/
namespace Manvi.Encoding
variable {α : Type}

inductive Piece (α : Type)
  | prose (text : List α)
  | block (body : List α)
  | unclosed (body : List α)
  deriving DecidableEq

def Piece.isProse : Piece α → Bool
  | .prose _ => true
  | _ => false

/-- A piece with its marks, as it stands in the sequence. -/
def Piece.text (opening closing : List α) : Piece α → List α
  | .prose text => text
  | .block body => opening ++ body ++ closing
  | .unclosed body => opening ++ body

def textOf (opening closing : List α) (ps : List (Piece α)) : List α :=
  ps.flatMap (Piece.text opening closing)

/-- The piece that a place of the sequence lies in. -/
def pieceAt (opening closing : List α) : List (Piece α) → ℕ → Option (Piece α)
  | [],_ => none
  | p :: ps,i =>
    if i < (p.text opening closing).length then
      some p else pieceAt opening closing ps (i-(p.text opening closing).length)

section cutting
variable [DecidableEq α]

def piecesFrom (opening closing : List α) : ℕ → List α → List (Piece α)
  | 0,data => [.prose data]
  | n+1,data => match index data opening with
    | none => [.prose data]
    | some start =>
      let body := data.drop (start+opening.length)
      match index body closing with
      | none => [.prose (data.take start),.unclosed body]
      | some stop =>
        .prose (data.take start) :: .block (body.take stop) :: piecesFrom opening closing n
        (body.drop (stop+closing.length))

def pieces (opening closing data : List α) : List (Piece α) :=
  piecesFrom opening closing (data.length+1) data

section walking
variable {β : Type} (opening closing : List α) (read : List α → Option (List β))

/-- Walk the blocks of a sequence: what is left without the blocks that are read, and what they are
read as. -/
def walkBlocks : ℕ → List α → List α × List β
  | 0,rest => (rest,[])
  | n+1,rest => match index rest opening with
    | none => (rest,[])
    | some start =>
      let body := rest.drop (start+opening.length)
      match index body closing with
      | none => (rest.take start ++ (opening ++ body),[])
      | some stop =>
        let next := walkBlocks n (body.drop (stop+closing.length))
        match read (body.take stop) with
        | some parsed => (rest.take start ++ next.1,parsed ++ next.2)
        | none => (rest.take start ++ (opening ++ body.take stop ++ closing) ++ next.1,next.2)

variable {opening closing read}

/-- What the walk finds was read from a block of the sequence. -/
lemma mem_walkBlocks {n : ℕ} {data : List α} {c : β}
    (h : c ∈ (walkBlocks opening closing read n data).2) :
    ∃ a body b parsed, data = a ++ opening ++ (body ++ closing ++ b) ∧ read body = some parsed ∧
    c ∈ parsed := by
  induction n generalizing data with
  | zero => cases h
  | succ n ih =>
    unfold walkBlocks at h
    cases hopen : index data opening with
    | none =>
      rw [hopen] at h
      cases h
    | some start =>
      rw [hopen] at h
      dsimp only at h
      have hdata := split_of_index hopen
      cases hclose : index (data.drop (start+opening.length)) closing with
      | none =>
        rw [hclose] at h
        cases h
      | some stop =>
        rw [hclose] at h
        dsimp only at h
        have hbody := split_of_index hclose
        have hlater : c ∈ (walkBlocks opening closing read n
            ((data.drop (start+opening.length)).drop (stop+closing.length))).2 →
            ∃ a body b parsed, data = a ++ opening ++ (body ++ closing ++ b) ∧
            read body = some parsed ∧ c ∈ parsed := by
          intro hc
          obtain ⟨a,body,b,parsed,hrest,hparse,hmem⟩ := ih hc
          rw [hrest] at hbody
          rw [hbody] at hdata
          refine ⟨data.take start ++ opening ++ ((data.drop (start+opening.length)).take stop ++
            closing ++ a),
            body,b,parsed,?_,hparse,hmem⟩
          exact hdata.trans (by simp only [List.append_assoc])
        cases hparse : read ((data.drop (start+opening.length)).take stop) with
        | none =>
          rw [hparse] at h
          exact hlater h
        | some parsed =>
          rw [hparse] at h
          cases List.mem_append.mp h with
          | inl hmem =>
            rw [hbody] at hdata
            exact ⟨_,_,_,parsed,hdata,hparse,hmem⟩
          | inr hmem => exact hlater hmem

end walking

/-- How a sequence is cut. -/
inductive Cuts (opening closing : List α) : List α → List (Piece α) → Prop
  | prose {data : List α} : ¬ opening <:+: data → Cuts opening closing data [.prose data]
  | unclosed {before body : List α} :
      index (before ++ opening ++ body) opening = some before.length →
      ¬ closing <:+: body → Cuts opening closing (before ++ opening ++ body) [.prose before,
        .unclosed body]
  | block {before body rest : List α} {ps : List (Piece α)} :
      index (before ++ opening ++ (body ++ closing ++ rest)) opening = some before.length →
      index (body ++ closing ++ rest) closing = some body.length → Cuts opening closing rest ps →
      Cuts opening closing (before ++ opening ++
        (body ++ closing ++ rest)) (.prose before :: .block body :: ps)

section index
variable {data tag : List α} {i : ℕ}

/-- An occurrence stands inside the sequence. -/
lemma index_within (h : index data tag = some i) : i+tag.length ≤ data.length := by
  induction data generalizing i with
  | nil =>
    unfold index at h
    split_ifs at h with hp
    rw [List.isPrefixOf_iff_prefix,List.prefix_nil] at hp
    cases h
    rw [hp]
    rfl
  | cons x xs ih =>
    by_cases hp : tag <+: x :: xs
    · rw [index_cons_of_begins hp] at h
      cases h
      rw [Nat.zero_add]
      exact hp.length_le
    · rw [index_cons_of_not_begins hp] at h
      obtain ⟨j,hj,rfl⟩ := Option.map_eq_some_iff.mp h
      have := ih hj
      rw [List.length_cons]
      omega

/-- The first occurrence stays the first when more follows. -/
lemma index_append (h : index data tag = some i) (more : List α) :
    index (data ++ more) tag = some i := by
  induction data generalizing i with
  | nil =>
    unfold index at h
    split_ifs at h with hp
    rw [List.isPrefixOf_iff_prefix,List.prefix_nil] at hp
    cases h
    subst hp
    cases more with
    | nil => rfl
    | cons x xs => exact index_cons_of_begins List.nil_prefix
  | cons x xs ih =>
    by_cases hp : tag <+: x :: xs
    · rw [index_cons_of_begins hp] at h
      cases h
      exact index_cons_of_begins (hp.trans (List.prefix_append _ _))
    · rw [index_cons_of_not_begins hp] at h
      obtain ⟨j,hj,rfl⟩ := Option.map_eq_some_iff.mp h
      have hlong := index_within hj
      have hnot : ¬ tag <+: x :: (xs ++ more) := by
        intro hmore
        refine hp (List.prefix_of_prefix_length_le hmore (List.prefix_append (x :: xs) more) ?_)
        rw [List.length_cons]
        omega
      rw [List.cons_append,index_cons_of_not_begins hnot,ih hj]
      rfl

/-- No occurrence stands before the first. -/
lemma index_le (before tag after : List α) :
    ∃ i, index (before ++ tag ++ after) tag = some i ∧ i ≤ before.length := by
  induction before with
  | nil =>
    refine ⟨0,?_,le_refl _⟩
    rw [List.nil_append]
    cases htext : tag ++ after with
    | nil =>
      rw [List.append_eq_nil_iff] at htext
      rw [htext.1]
      rfl
    | cons x xs => exact index_cons_of_begins ⟨after,htext⟩
  | cons x xs ih =>
    obtain ⟨i,hi,hle⟩ := ih
    by_cases hp : tag <+: x :: (xs ++ tag ++ after)
    · exact ⟨0,index_cons_of_begins hp,Nat.zero_le _⟩
    · refine ⟨i+1,?_,by rw [List.length_cons];omega⟩
      rw [List.cons_append,List.cons_append,index_cons_of_not_begins hp,hi]
      rfl

/-- Where a mark is first found, the sequence is cut. -/
lemma exists_of_index (h : index data tag = some i) :
    ∃ before after, data = before ++ tag ++ after ∧ before.length = i ∧ before = data.take i ∧
      after = data.drop (i+tag.length) := by
  have hwithin := index_within h
  refine ⟨data.take i,data.drop (i+tag.length),split_of_index h,?_,rfl,rfl⟩
  rw [List.length_take]
  omega

end index

omit [DecidableEq α] in
lemma drop_mark (a tag b : List α) : (a ++ tag ++ b).drop (a.length+tag.length) = b := by
  rw [← List.length_append,List.drop_left]

omit [DecidableEq α] in
lemma take_mark (a tag b : List α) : (a ++ tag ++ b).take a.length = a := by
  rw [List.append_assoc,List.take_left]

variable {opening closing data : List α} {ps : List (Piece α)}

lemma piecesFrom_cuts (hne : opening ≠ []) {n : ℕ} (h : data.length < n) :
    Cuts opening closing data (piecesFrom opening closing n data) := by
  induction n generalizing data with
  | zero => omega
  | succ n ih =>
    unfold piecesFrom
    cases hopen : index data opening with
    | none => exact .prose (index_eq_none_iff.mp hopen)
    | some start =>
      obtain ⟨before,after,rfl,hlen,hbefore,hafter⟩ := exists_of_index hopen
      dsimp only
      rw [← hbefore,← hafter]
      cases hclose : index after closing with
      | none =>
        rw [← hlen] at hopen
        exact .unclosed hopen (index_eq_none_iff.mp hclose)
      | some stop =>
        obtain ⟨body,rest,rfl,hstop,hbody,hrest⟩ := exists_of_index hclose
        dsimp only
        rw [← hbody,← hrest]
        rw [← hlen] at hopen
        rw [← hstop] at hclose
        refine .block hopen hclose (ih ?_)
        have hpos := List.length_pos_of_ne_nil hne
        simp only [List.length_append] at h
        omega

lemma pieces_cuts (hne : opening ≠ []) : Cuts opening closing data (pieces opening closing data) :=
  piecesFrom_cuts hne (Nat.lt_succ_self _)

namespace Cuts

/-- The pieces make up the sequence. -/
lemma text_eq (h : Cuts opening closing data ps) : textOf opening closing ps = data := by
  induction h with
  | prose _ => simp [textOf,Piece.text]
  | unclosed _ _ => simp [textOf,Piece.text]
  | block _ _ _ ih =>
    rw [textOf] at ih
    simp [textOf,Piece.text,ih]

/-- A sequence is cut in one way. -/
lemma eq_piecesFrom (hne : opening ≠ []) (h : Cuts opening closing data ps) {n : ℕ}
    (hn : data.length < n) :
    piecesFrom opening closing n data = ps := by
  induction h generalizing n with
  | prose hnone =>
    cases n with
    | zero => omega
    | succ n => simp only [piecesFrom,index_eq_none_iff.mpr hnone]
  | @unclosed before body hopen hclose =>
    cases n with
    | zero => omega
    | succ n =>
      simp only [piecesFrom,hopen,drop_mark,take_mark,index_eq_none_iff.mpr hclose]
  | @block before body rest ps hopen hclose hrest ih =>
    cases n with
    | zero => omega
    | succ n =>
      have hpos := List.length_pos_of_ne_nil hne
      simp only [List.length_append] at hn
      simp only [piecesFrom,hopen,hclose,drop_mark,take_mark]
      rw [ih (by omega)]

lemma eq_pieces (hne : opening ≠ []) (h : Cuts opening closing data ps) :
    pieces opening closing data = ps :=
  h.eq_piecesFrom hne (Nat.lt_succ_self _)

end Cuts
end cutting

section places
variable {opening closing : List α} {ps qs : List (Piece α)} {p : Piece α} {i : ℕ}

@[simp] lemma textOf_append (ps qs : List (Piece α)) :
    textOf opening closing (ps ++ qs) = textOf opening closing ps ++ textOf opening closing qs :=
    List.flatMap_append

@[simp] lemma textOf_cons (p : Piece α) (ps : List (Piece α)) :
    textOf opening closing (p :: ps) = p.text opening closing ++ textOf opening closing ps :=
    List.flatMap_cons

lemma pieceAt_here (h : i < (p.text opening closing).length) :
    pieceAt opening closing (p :: ps) i = some p := by
  rw [pieceAt,if_pos h]

lemma pieceAt_later (h : (p.text opening closing).length ≤ i) :
    pieceAt opening closing (p :: ps) i = pieceAt opening closing ps
    (i-(p.text opening closing).length) := by
  rw [pieceAt,if_neg (not_lt.mpr h)]

@[simp] lemma pieceAt_append (ps qs : List (Piece α)) (i : ℕ) :
    pieceAt opening closing (ps ++ qs) ((textOf opening closing ps).length+i) =
    pieceAt opening closing qs i := by
  induction ps with
  | nil => simp [textOf]
  | cons p ps ih =>
    rw [List.cons_append,pieceAt_later (by rw [textOf_cons,List.length_append];omega)]
    rw [textOf_cons,List.length_append,Nat.add_assoc,Nat.add_sub_cancel_left,ih]

lemma pieceAt_append_of_lt (h : i < (textOf opening closing ps).length) :
    pieceAt opening closing (ps ++ qs) i = pieceAt opening closing ps i := by
  induction ps generalizing i with
  | nil => cases h
  | cons p ps ih =>
    by_cases hi : i < (p.text opening closing).length
    · rw [List.cons_append,pieceAt_here hi,pieceAt_here hi]
    · rw [textOf_cons,List.length_append] at h
      rw [List.cons_append,pieceAt_later (not_lt.mp hi),pieceAt_later (not_lt.mp hi),ih (by omega)]

lemma mem_of_pieceAt (h : pieceAt opening closing ps i = some p) : p ∈ ps := by
  induction ps generalizing i with
  | nil => cases h
  | cons q ps ih =>
    unfold pieceAt at h
    split_ifs at h with hi
    · cases h
      exact List.mem_cons_self
    · exact List.mem_cons_of_mem _ (ih h)

/-- What stands at a place stands in the piece it lies in. -/
lemma getElem?_of_pieceAt (h : pieceAt opening closing ps i = some p) :
    ∃ x ∈ p.text opening closing, (textOf opening closing ps)[i]? = some x := by
  induction ps generalizing i with
  | nil => cases h
  | cons q ps ih =>
    unfold pieceAt at h
    split_ifs at h with hi
    · cases h
      refine ⟨(p.text opening closing)[i],List.getElem_mem hi,?_⟩
      rw [textOf_cons,List.getElem?_append_left hi,List.getElem?_eq_getElem hi]
    · obtain ⟨x,hx,hget⟩ := ih h
      refine ⟨x,hx,?_⟩
      rw [textOf_cons,List.getElem?_append_right (not_lt.mp hi),hget]

lemma exists_pieceAt (h : i < (textOf opening closing ps).length) :
    ∃ p, pieceAt opening closing ps i = some p := by
  induction ps generalizing i with
  | nil => cases h
  | cons q ps ih =>
    by_cases hi : i < (q.text opening closing).length
    · exact ⟨q,pieceAt_here hi⟩
    · rw [textOf_cons,List.length_append] at h
      rw [pieceAt_later (not_lt.mp hi)]
      exact ih (by omega)

end places

namespace Cuts
variable [DecidableEq α] {opening closing data : List α} {ps : List (Piece α)}

/-- An opening mark lies in a block, or in what is not closed. -/
lemma at_opening (hne : opening ≠ []) (h : Cuts opening closing data ps) {a b : List α}
    (hdata : data = a ++ opening ++ b) :
    ∃ p, pieceAt opening closing ps a.length = some p ∧ p.isProse = false := by
  have hpos := List.length_pos_of_ne_nil hne
  induction h generalizing a with
  | prose hnone => exact absurd ⟨a,b,hdata.symm⟩ hnone
  | @unclosed before body hopen _ =>
    obtain ⟨i,hi,hle⟩ := index_le a opening b
    rw [← hdata,hopen] at hi
    cases hi
    have hlen := congrArg List.length hdata
    simp only [List.length_append] at hlen
    refine ⟨.unclosed body,?_,rfl⟩
    rw [pieceAt_later hle,pieceAt_here]
    simp only [Piece.text,List.length_append]
    omega
  | @block before body rest ps hopen _ _ ih =>
    obtain ⟨i,hi,hle⟩ := index_le a opening b
    rw [← hdata,hopen] at hi
    cases hi
    rw [pieceAt_later hle]
    by_cases hin : a.length-before.length < (opening ++ body ++ closing).length
    · exact ⟨.block body,pieceAt_here hin,rfl⟩
    · have hlong : (before ++ opening ++ body ++ closing).length ≤ a.length := by
        simp only [List.length_append] at hin ⊢
        omega
      have hsame : before ++ opening ++ body ++ closing ++ rest = a ++ (opening ++ b) := by
        rw [← List.append_assoc a,← hdata]
        simp
      obtain ⟨a',ha'⟩ := List.prefix_of_prefix_length_le ⟨rest,
        hsame⟩ (List.prefix_append a (opening ++ b)) hlong
      subst ha'
      have hrest : rest = a' ++ opening ++ b := by
        rw [List.append_assoc _ a',List.append_cancel_left_eq] at hsame
        rw [hsame,List.append_assoc]
      obtain ⟨p,hp,hprose⟩ := ih hrest
      refine ⟨p,?_,hprose⟩
      rw [pieceAt_later (not_lt.mp hin),← hp]
      congr 1
      simp only [List.length_append,Piece.text]
      omega

section appended
variable {c : α} {tail : List α}

/-- A block stays a block when more follows. -/
lemma block_more {before body rest more : List α}
    (hindex : index (before ++ opening ++ (body ++ closing ++ rest)) opening =
      some before.length) (hstop : index (body ++ closing ++ rest) closing = some body.length)
    (hrest : Cuts opening closing (rest ++ more) ps) :
    Cuts opening closing (before ++ opening ++ (body ++ closing ++ rest) ++
      more) (.prose before :: .block body :: ps) := by
  have hfirst := index_append hindex more
  have hlast := index_append hstop more
  have htext : before ++ opening ++ (body ++ closing ++ rest) ++ more =
      before ++ opening ++ (body ++ closing ++ (rest ++ more)) := by simp
  rw [htext] at hfirst ⊢
  rw [List.append_assoc] at hlast
  exact .block hfirst hlast hrest

/-- What is not closed reaches over whatever follows. -/
lemma over_unclosed (hne : opening ≠ []) (hc : c ∉ closing) (h : Cuts opening closing data ps)
    (hopen : ∃ body, .unclosed body ∈ ps) : ∃ qs, Cuts opening closing (data ++ c :: tail) qs ∧
      ∃ p, pieceAt opening closing qs data.length = some p ∧ p.isProse = false := by
  induction h with
  | prose _ =>
    obtain ⟨body,hbody⟩ := hopen
    simp at hbody
  | @unclosed before body hindex hclose =>
    have hmore := index_append hindex (c :: tail)
    rw [List.append_assoc] at hmore
    cases hstop : index (body ++ c :: tail) closing with
    | none =>
      refine ⟨_,by rw [List.append_assoc];exact .unclosed hmore (index_eq_none_iff.mp hstop),
        .unclosed (body ++ c :: tail),?_,rfl⟩
      rw [pieceAt_later (by simp [Piece.text]),pieceAt_here]
      simp only [Piece.text,List.length_append,List.length_cons]
      omega
    | some stop =>
      obtain ⟨inner,rest,hsplit,hlen,-,-⟩ := exists_of_index hstop
      have hlong : body.length < inner.length := by
        cases append_eq_append_cons hc hsplit.symm with
        | inl h =>
          obtain ⟨z,hz⟩ := h
          exact absurd ⟨inner,z,hz.symm⟩ hclose
        | inr h =>
          obtain ⟨z,-,hz⟩ := h
          rw [hz]
          simp
      obtain ⟨qs,hqs⟩ : ∃ qs, Cuts opening closing rest qs := ⟨_,pieces_cuts hne⟩
      rw [hsplit] at hmore hstop
      rw [← hlen] at hstop
      refine ⟨_,by rw [List.append_assoc,hsplit];exact .block hmore hstop hqs,.block inner,?_,rfl⟩
      rw [pieceAt_later (by simp [Piece.text]),pieceAt_here]
      simp only [Piece.text,List.length_append]
      omega
  | @block before body rest ps hindex hstop _ ih =>
    have hlater : ∃ body, .unclosed body ∈ ps := by
      obtain ⟨b,hb⟩ := hopen
      exact ⟨b,by simpa using hb⟩
    obtain ⟨qs,hqs,p,hp,hprose⟩ := ih hlater
    refine ⟨_,.block_more hindex hstop hqs,p,?_,hprose⟩
    rw [pieceAt_later (by simp [Piece.text]),
      pieceAt_later (by simp only [Piece.text,List.length_append];omega),← hp]
    congr 1
    simp only [Piece.text,List.length_append]
    omega

/-- Behind a text that leaves nothing open, nothing is a block where no opening mark follows. -/
lemma beyond_closed (hc : c ∉ opening) (hnone : ¬ opening <:+: c :: tail)
    (h : Cuts opening closing data ps)
    (hclosed : ∀ body, .unclosed body ∉ ps) : ∃ qs, Cuts opening closing (data ++ c :: tail) qs ∧
      ∀ i p, data.length ≤ i → pieceAt opening closing qs i = some p → p.isProse = true := by
  induction h with
  | prose hfree =>
    refine ⟨_,.prose ?_,?_⟩
    · intro hin
      cases infix_append_cons hc hin with
      | inl h => exact hfree h
      | inr h => exact hnone (h.trans (List.suffix_cons c tail).isInfix)
    · intro i p _ hp
      have hmem := mem_of_pieceAt hp
      rw [List.mem_singleton] at hmem
      rw [hmem]
      rfl
  | @unclosed before body _ _ => exact absurd (by simp) (hclosed body)
  | @block before body rest ps hindex hstop _ ih =>
    obtain ⟨qs,hqs,hprose⟩ := ih (fun b hb => hclosed b (by simp [hb]))
    refine ⟨_,.block_more hindex hstop hqs,?_⟩
    intro i p hi hp
    simp only [List.length_append] at hi
    rw [pieceAt_later (by simp only [Piece.text];omega),
      pieceAt_later (by simp only [Piece.text,List.length_append];omega)] at hp
    refine hprose _ p ?_ hp
    simp only [Piece.text,List.length_append]
    omega

end appended
end Cuts

end Manvi.Encoding
