import Manvi.OpenAICompat.Recovered

/-! The text that recovery leaves: the walks of the two kinds of blocks, and when a fence that is
read as a call takes part of a tool-call block with it. -/
namespace Manvi.OpenAICompat.Recovery
open Manvi.Encoding Manvi.Encoding.Json

variable {tools : List ToolSchema}

section tagged

lemma reads_tagged (body : List Char) : Scan.tagged.reads tools (.block body) =
    ((parseCallPayload (Runes.trimSpace body) tools).getD []).map (fun c => ⟨c.name,c.args⟩) := rfl

lemma reads_prose (scan : Scan) (text : List Char) : scan.reads tools (.prose text) = [] := by
  cases scan with
  | tagged => rfl
  | fenced => rfl

lemma reads_unclosed (scan : Scan) (body : List Char) : scan.reads tools (.unclosed body) = [] := by
  cases scan with
  | tagged => rfl
  | fenced => rfl

lemma reads_tagged_some {body : List Char} {calls : List ParsedCall}
    (h : parseCallPayload (Runes.trimSpace body) tools = some calls) :
    Scan.tagged.reads tools (.block body) = calls.map (fun c => ⟨c.name,c.args⟩) ∧
    Scan.tagged.reads tools (.block body) ≠ [] := by
  rw [reads_tagged,h]
  refine ⟨rfl,?_⟩
  simp [(parseCallPayload_spec h).1]

lemma reads_tagged_none {body : List Char}
    (h : parseCallPayload (Runes.trimSpace body) tools = none) :
    Scan.tagged.reads tools (.block body) = [] := by
  rw [reads_tagged,h]
  rfl

section kept
variable {scan : Scan} {p : Piece Char} {ps : List (Piece Char)}

lemma kept_cons_of_read (h : scan.reads tools p ≠ []) :
    scan.kept tools (p :: ps) = scan.kept tools ps := by
  rw [Scan.kept,List.filter_cons_of_neg (by simpa using h)]
  rfl

lemma kept_cons_of_left (h : scan.reads tools p = []) :
    scan.kept tools (p :: ps) = p.text scan.opening scan.closing ++ scan.kept tools ps := by
  rw [Scan.kept,List.filter_cons_of_pos (by simpa using h),textOf_cons]
  rfl

end kept

/-- The walk of the tool-call blocks keeps what they are not read from, and finds what they are read
as. -/
lemma walkTaggedCalls_cuts {data : List Char} {ps : List (Piece Char)}
    (h : Cuts toolCallOpen toolCallClose data ps) {n : ℕ}
    (hn : data.length < n) : (walkTaggedCalls tools n data).1 = Scan.tagged.kept tools ps ∧
      (walkTaggedCalls tools n data).2.map (fun c => ⟨c.name,c.args⟩) = ps.flatMap
      (Scan.tagged.reads tools) := by
  unfold walkTaggedCalls
  induction h generalizing n with
  | @prose data hnone =>
    cases n with
    | zero => omega
    | succ n =>
      simp only [walkBlocks,index_eq_none_iff.mpr hnone,kept_cons_of_left (reads_prose _ _),
        List.flatMap_cons,
        List.flatMap_nil,reads_prose]
      exact ⟨(List.append_nil data).symm,rfl⟩
  | @unclosed before body hopen hclose =>
    cases n with
    | zero => omega
    | succ n =>
      simp only [walkBlocks,hopen,drop_mark,take_mark,index_eq_none_iff.mpr hclose,
        List.flatMap_cons,List.flatMap_nil,
        kept_cons_of_left (reads_prose _ _),kept_cons_of_left (reads_unclosed _ _),reads_prose,
        reads_unclosed]
      refine ⟨?_,rfl⟩
      simp [Piece.text,Scan.opening,Scan.kept,textOf]
  | @block before body rest ps hopen hclose hrest ih =>
    cases n with
    | zero => omega
    | succ n =>
      simp only [List.length_append] at hn
      have hlen : toolCallOpen.length = 11 := rfl
      obtain ⟨hclean,hcalls⟩ := @ih n (by omega)
      cases hparse : parseCallPayload (Runes.trimSpace body) tools with
      | none =>
        have hread := reads_tagged_none hparse
        simp only [walkBlocks,hopen,hclose,drop_mark,take_mark,hparse,hclean,hcalls,
          List.flatMap_cons,
          kept_cons_of_left (reads_prose _ _),kept_cons_of_left hread,reads_prose,hread,
          List.nil_append]
        refine ⟨?_,trivial⟩
        simp [Piece.text,Scan.opening,Scan.closing]
      | some parsed =>
        obtain ⟨hread,hne⟩ := reads_tagged_some hparse
        simp only [walkBlocks,hopen,hclose,drop_mark,take_mark,hparse,hclean,List.map_append,hcalls,
          List.flatMap_cons,
          kept_cons_of_left (reads_prose _ _),kept_cons_of_read hne,reads_prose,hread,
          List.nil_append]
        exact ⟨rfl,trivial⟩

/-- The tool-call blocks: all of their calls, and the text without the blocks that are read. -/
lemma extractTaggedCalls_eq (data : List Char) :
    (extractTaggedCalls data tools).2.map (fun c => ⟨c.name,c.args⟩) =
      (Scan.tagged.pieces data).flatMap (Scan.tagged.reads tools) ∧
    ((extractTaggedCalls data tools).2 ≠ [] →
      (extractTaggedCalls data tools).1 = Runes.trimSpace (Scan.tagged.kept tools
        (Scan.tagged.pieces data))) := by
  obtain ⟨hclean,hcalls⟩ :=
    @walkTaggedCalls_cuts tools _ _ (Scan.tagged.cuts data) _ (Nat.lt_succ_self _)
  unfold extractTaggedCalls
  by_cases hcontains : contains data toolCallOpen = true
  · rw [hcontains]
    dsimp only [Bool.not_true]
    rw [if_neg (by decide)]
    by_cases hnil : (walkTaggedCalls tools (data.length+1) data).2 = []
    · rw [if_pos hnil,← hcalls,hnil]
      exact ⟨rfl,fun h => absurd rfl h⟩
    · rw [if_neg hnil,← hclean]
      exact ⟨hcalls,fun _ => rfl⟩
  · have hfree : ¬ toolCallOpen <:+: data := by rwa [contains_iff] at hcontains
    have hpieces : Scan.tagged.pieces data = [.prose data] :=
      Cuts.eq_pieces (by decide) (.prose hfree)
    rw [Bool.eq_false_of_not_eq_true hcontains]
    rw [if_pos (by rfl),hpieces]
    exact ⟨rfl,fun h => absurd rfl h⟩

end tagged

section fenced

/-- A piece that may not follow a call: prose, or a block that is none. -/
def stray (tools : List ToolSchema) : Piece Char → Bool
  | .prose text => Runes.trimSpace text ≠ []
  | p => Scan.fenced.reads tools p = []

/-- Whether anything other than a call follows a call. -/
def strays (tools : List ToolSchema) : Bool → List (Piece Char) → Bool
  | _,[] => false
  | called,p :: ps => (called && stray tools p) || strays tools
    (called || Scan.fenced.reads tools p ≠ []) ps

lemma reads_fenced_some {body : List Char} {call : ToolCallBlock}
    (h : fenceCall tools body = some call) :
    Scan.fenced.reads tools (.block body) = [call] := by
  change (fenceCall tools body).toList = _
  rw [h]
  rfl

lemma reads_fenced_none {body : List Char} (h : fenceCall tools body = none) :
    Scan.fenced.reads tools (.block body) = [] := by
  change (fenceCall tools body).toList = _
  rw [h]
  rfl

/-- The walk of the fences. -/
lemma walkFences_cuts {data : List Char} {ps : List (Piece Char)} (h : Cuts fence fence data ps)
    {n : ℕ}
    (hn : data.length < n) (w : FenceWalk) : walkFences tools n w data =
      ⟨w.clean ++ Scan.fenced.kept tools ps,w.calls ++ ps.flatMap (Scan.fenced.reads tools),
        w.proseAfterCall || strays tools (w.calls ≠ []) ps⟩ := by
  have hthree : fence.length = 3 := rfl
  induction h generalizing n w with
  | @prose data hnone =>
    cases n with
    | zero => omega
    | succ n =>
      simp only [walkFences,index_eq_none_iff.mpr hnone,kept_cons_of_left (reads_prose _ _),
        List.flatMap_cons,
        List.flatMap_nil,reads_prose,strays,stray]
      simp [Piece.text,Scan.kept,textOf]
  | @unclosed before body hopen hclose =>
    cases n with
    | zero => omega
    | succ n =>
      have hbody : (before ++ fence ++ body).drop (before.length+3) = body :=
        drop_mark before fence body
      simp only [walkFences,hopen,hbody,index_eq_none_iff.mpr hclose,List.flatMap_cons,
        List.flatMap_nil,
        kept_cons_of_left (reads_prose _ _),kept_cons_of_left (reads_unclosed _ _),reads_prose,
        reads_unclosed,strays,stray]
      cases hcalls : w.calls with
      | nil => simp [Piece.text,Scan.opening,Scan.kept,textOf]
      | cons => simp [Piece.text,Scan.opening,Scan.kept,textOf]
  | @block before body rest ps hopen hclose hrest ih =>
    cases n with
    | zero => omega
    | succ n =>
      simp only [List.length_append] at hn
      have hbody : (before ++ fence ++ (body ++ fence ++ rest)).drop (before.length+3) = body ++
        fence ++ rest :=
        drop_mark before fence _
      have hafter : (body ++ fence ++ rest).drop (body.length+3) = rest := drop_mark body fence rest
      have hwhole : (before ++ fence ++
        (body ++ fence ++ rest)).take (before.length+3+body.length+3) =
          before ++ (fence ++ body ++ fence) := by
        have htext : before ++ fence ++
          (body ++ fence ++ rest) = (before ++ (fence ++ body ++ fence)) ++ rest := by simp
        have hsize : before.length+3+body.length+3 = (before ++
          (fence ++ body ++ fence)).length := by
          simp only [List.length_append,hthree]
          omega
        rw [htext,hsize,List.take_left]
      cases hcall : fenceCall tools body with
      | none =>
        have hread := reads_fenced_none hcall
        simp only [walkFences,hopen,hclose,hbody,hafter,hwhole,take_mark,hcall]
        rw [@ih n (by omega)]
        simp only [List.flatMap_cons,kept_cons_of_left (reads_prose _ _),kept_cons_of_left hread,
          reads_prose,hread,
          List.nil_append,strays,stray]
        cases hcalls : w.calls with
        | nil => simp [Piece.text,Scan.opening,Scan.closing]
        | cons => simp [Piece.text,Scan.opening,Scan.closing]
      | some call =>
        have hread := reads_fenced_some hcall
        have hne : Scan.fenced.reads tools (.block body) ≠ [] := by rw [hread];simp
        simp only [walkFences,hopen,hclose,hbody,hafter,take_mark,hcall]
        rw [@ih n (by omega)]
        simp only [List.flatMap_cons,kept_cons_of_left (reads_prose _ _),kept_cons_of_read hne,
          reads_prose,hread,
          List.nil_append,strays,stray]
        simp [Piece.text,Bool.or_assoc]

/-- The calls of the fences, if nothing else follows the first. -/
lemma extractFencedCalls_eq (data : List Char) : extractFencedCalls data tools =
    if (Scan.fenced.pieces data).flatMap (Scan.fenced.reads tools) = [] ∨
      strays tools false (Scan.fenced.pieces data) = true
    then (data,[])
    else (Runes.trimSpace (Scan.fenced.kept tools (Scan.fenced.pieces data)),
      (Scan.fenced.pieces data).flatMap (Scan.fenced.reads tools)) := by
  unfold extractFencedCalls
  rw [walkFences_cuts (Scan.fenced.cuts data) (Nat.lt_succ_self _)]
  simp

/-- A text ends in fences that are read as calls: none before them is, and nothing else follows the
first. -/
structure Trailing (tools : List ToolSchema) (before after : List (Piece Char)) : Prop where
  before : ∀ p ∈ before, Scan.fenced.reads tools p = []
  first : ∃ p rest, after = p :: rest ∧ Scan.fenced.reads tools p ≠ []
  calls : ∀ p ∈ after, stray tools p = false

lemma strays_true_iff (ps : List (Piece Char)) :
    strays tools true ps = false ↔ ∀ p ∈ ps, stray tools p = false := by
  induction ps with
  | nil => simp [strays]
  | cons p ps ih => simp [strays,ih]

lemma stray_of_read {p : Piece Char} (h : Scan.fenced.reads tools p ≠ []) :
    stray tools p = false := by
  cases p with
  | prose text => exact absurd (reads_prose _ _) h
  | block body => simpa [stray] using h
  | unclosed body => exact absurd (reads_unclosed _ _) h

lemma exists_trailing {ps : List (Piece Char)} (hstrays : strays tools false ps = false)
    (hcalls : ps.flatMap (Scan.fenced.reads tools) ≠ []) : ∃ before after, ps = before ++ after ∧
    Trailing tools before after := by
  induction ps with
  | nil => exact absurd rfl hcalls
  | cons p ps ih =>
    by_cases hread : Scan.fenced.reads tools p = []
    · simp only [strays,hread] at hstrays
      rw [List.flatMap_cons,hread,List.nil_append] at hcalls
      obtain ⟨before,after,rfl,h⟩ := ih (by simpa using hstrays) hcalls
      refine ⟨p :: before,after,rfl,?_,h.first,h.calls⟩
      intro q hq
      obtain rfl | hq := List.mem_cons.mp hq
      · exact hread
      · exact h.before q hq
    · have hlater : strays tools true ps = false := by simpa [strays,hread] using hstrays
      refine ⟨[],p :: ps,rfl,by simp,⟨p,ps,rfl,hread⟩,?_⟩
      intro q hq
      obtain rfl | hq := List.mem_cons.mp hq
      · exact stray_of_read hread
      · exact (strays_true_iff ps).mp hlater q hq

namespace Trailing
variable {before after : List (Piece Char)}

lemma flatMap_ne (h : Trailing tools before after) :
    (before ++ after).flatMap (Scan.fenced.reads tools) ≠ [] := by
  obtain ⟨p,rest,rfl,hp⟩ := h.first
  simp [hp]

lemma strays_eq (h : Trailing tools before after) :
    strays tools false (before ++ after) = false := by
  obtain ⟨hbefore,⟨p,rest,rfl,hp⟩,hcalls⟩ := h
  induction before with
  | nil =>
    have hlater := (strays_true_iff rest).mpr (fun q hq => hcalls q (List.mem_cons_of_mem p hq))
    simpa [strays,hp] using hlater
  | cons q before ih =>
    have hq := hbefore q List.mem_cons_self
    have := ih (fun r hr => hbefore r (List.mem_cons_of_mem q hr))
    simpa [strays,hq] using this

end Trailing
end fenced

/-- What recovery returns: the calls of the tool-call blocks, or else those of the fences that the
text ends in. -/
lemma extractFallbackToolCalls_cases (raw : List Char) (tools : List ToolSchema) :
    (∃ fmt, (Scan.tagged.pieces (Runes.trimSpace raw)).flatMap (Scan.tagged.reads tools) ≠ [] ∧
      extractFallbackToolCalls raw tools =
        (Runes.trimSpace (Scan.tagged.kept tools (Scan.tagged.pieces (Runes.trimSpace raw))),
          (Scan.tagged.pieces (Runes.trimSpace raw)).flatMap (Scan.tagged.reads tools),fmt)) ∨
    ((Scan.tagged.pieces (Runes.trimSpace raw)).flatMap (Scan.tagged.reads tools) = [] ∧
      (∃ before after, Scan.fenced.pieces (Runes.trimSpace raw) = before ++ after ∧
        Trailing tools before after) ∧
      extractFallbackToolCalls raw tools =
        (Runes.trimSpace (Scan.fenced.kept tools (Scan.fenced.pieces (Runes.trimSpace raw))),
          (Scan.fenced.pieces (Runes.trimSpace raw)).flatMap (Scan.fenced.reads tools),
          .fencedJSON)) ∨
    ((Scan.tagged.pieces (Runes.trimSpace raw)).flatMap (Scan.tagged.reads tools) = [] ∧
      (∀ before after, Scan.fenced.pieces (Runes.trimSpace raw) = before ++ after →
        ¬ Trailing tools before after) ∧
      extractFallbackToolCalls raw tools = (raw,[],.none)) := by
  unfold extractFallbackToolCalls
  dsimp only
  generalize htext : Runes.trimSpace raw = text
  by_cases hempty : text = []
  · subst hempty
    refine .inr (.inr ⟨rfl,?_,by rw [if_pos rfl]⟩)
    intro before after hpieces h
    have hnone : (before ++ after).flatMap (Scan.fenced.reads tools) = [] := by
      rw [← hpieces]
      rfl
    exact h.flatMap_ne hnone
  · obtain ⟨hcalls,hclean⟩ := @extractTaggedCalls_eq tools text
    rw [if_neg hempty]
    by_cases htagged : (extractTaggedCalls text tools).2 = []
    · rw [htagged] at hcalls
      rw [if_neg (by simpa using htagged),extractFencedCalls_eq]
      by_cases hnone : (Scan.fenced.pieces text).flatMap (Scan.fenced.reads tools) = [] ∨
          strays tools false (Scan.fenced.pieces text) = true
      · rw [if_pos hnone]
        refine .inr (.inr ⟨hcalls.symm,?_,by rw [if_neg (by simp)]⟩)
        intro before after hpieces h
        rw [hpieces] at hnone
        obtain hnil | hstrays := hnone
        · exact h.flatMap_ne hnil
        · rw [h.strays_eq] at hstrays
          cases hstrays
      · rw [if_neg hnone]
        obtain ⟨hne,hstrays⟩ := not_or.mp hnone
        rw [if_pos hne]
        exact .inr (.inl ⟨hcalls.symm,exists_trailing (by simpa using hstrays) hne,rfl⟩)
    · rw [if_pos htagged]
      refine .inl ⟨_,?_,by rw [hcalls,hclean htagged]⟩
      rw [← hcalls]
      simpa using htagged

section left
variable {text : List Char} {before after : List (Piece Char)}

/-- Where the fences begin that a text ends in, the tool-call blocks in front of them are closed,
and no opening tag follows. -/
def Apart (before after : List (Piece Char)) : Prop :=
  (∀ body, .unclosed body ∉ Scan.tagged.pieces (textOf fence fence before)) ∧
  ¬ toolCallOpen <:+: textOf fence fence after

/-- No place of the text lies both in a tool-call block and in a fence that is read as a call. -/
def LeftAlone (tools : List ToolSchema) (text : List Char) : Prop :=
  ∀ i p q, Scan.tagged.pieceAt text i = some p → p.isProse = false →
  Scan.fenced.pieceAt text i = some q →
    Scan.fenced.reads tools q = []

lemma Trailing.text_eq (hpieces : Scan.fenced.pieces text = before ++ after) :
    text = textOf fence fence before ++ textOf fence fence after := by
  rw [← textOf_append,← hpieces]
  exact (Scan.fenced.cuts text).text_eq.symm

lemma Trailing.first_text (h : Trailing tools before after) :
    ∃ rest, textOf fence fence after = '\x60' :: rest := by
  obtain ⟨p,rest,rfl,hp⟩ := h.first
  cases p with
  | prose text => exact absurd (reads_prose _ _) hp
  | block body => exact ⟨_,rfl⟩
  | unclosed body => exact absurd (reads_unclosed _ _) hp

/-- A fence that is read stands behind the text before the fences. -/
lemma Trailing.behind (h : Trailing tools before after)
    (hpieces : Scan.fenced.pieces text = before ++ after) {i : ℕ}
    {q : Piece Char} (hq : Scan.fenced.pieceAt text i = some q)
    (hread : Scan.fenced.reads tools q ≠ []) :
    (textOf fence fence before).length ≤ i := by
  by_contra hlt
  rw [Scan.pieceAt,hpieces] at hq
  have hin : pieceAt fence fence (before ++ after) i = some q := hq
  rw [pieceAt_append_of_lt (not_le.mp hlt)] at hin
  exact hread (h.before q (mem_of_pieceAt hin))

lemma Trailing.at_first (h : Trailing tools before after)
    (hpieces : Scan.fenced.pieces text = before ++ after) :
    ∃ q, Scan.fenced.pieceAt text (textOf fence fence before).length = some q ∧
    Scan.fenced.reads tools q ≠ [] := by
  have hplace := @pieceAt_append Char fence fence before after 0
  obtain ⟨p,rest,rfl,hp⟩ := h.first
  refine ⟨p,?_,hp⟩
  rw [Scan.pieceAt,hpieces]
  refine hplace.trans (pieceAt_here ?_)
  cases p with
  | prose text => exact absurd (reads_prose _ _) hp
  | block body => exact Nat.succ_pos _
  | unclosed body => exact absurd (reads_unclosed _ _) hp

/-- Behind the first fence that is read, what is no white space stands in such a fence. -/
lemma Trailing.at_ink (h : Trailing tools before after)
    (hpieces : Scan.fenced.pieces text = before ++ after) {i : ℕ} {c : Char}
    (hc : (textOf fence fence after)[i]? = some c) (hink : Runes.isSpace c = false) :
    ∃ q, Scan.fenced.pieceAt text ((textOf fence fence before).length+i) = some q ∧
    Scan.fenced.reads tools q ≠ [] := by
  have hi : i < (textOf fence fence after).length := (List.getElem?_eq_some_iff.mp hc).1
  obtain ⟨q,hq⟩ := exists_pieceAt hi
  refine ⟨q,?_,?_⟩
  · rw [Scan.pieceAt,hpieces]
    exact (pieceAt_append before after i).trans hq
  · have hstray := h.calls q (mem_of_pieceAt hq)
    cases q with
    | block body => simpa [stray] using hstray
    | unclosed body => simp [stray,reads_unclosed] at hstray
    | prose blank =>
      exfalso
      obtain ⟨x,hx,hget⟩ := getElem?_of_pieceAt hq
      rw [hc] at hget
      cases hget
      have hblank : Runes.trimSpace blank = [] := by simpa [stray] using hstray
      obtain ⟨a,b,hsplit,ha,hb⟩ := Runes.trimSpace_split blank
      rw [hblank,List.append_nil] at hsplit
      have hmem : c ∈ a ++ b := hsplit ▸ hx
      have hspace : (a ++ b).all Runes.isSpace = true := by rw [List.all_append,ha,hb];rfl
      rw [List.all_eq_true.mp hspace c hmem] at hink
      cases hink

/-- The fences leave the tool-call blocks alone exactly where they stand apart from them. -/
lemma Trailing.leftAlone_iff (h : Trailing tools before after)
    (hpieces : Scan.fenced.pieces text = before ++ after) :
    LeftAlone tools text ↔ Apart before after := by
  obtain ⟨rest,hrest⟩ := h.first_text
  have htext := Trailing.text_eq hpieces
  have hcuts := Scan.tagged.cuts (textOf fence fence before)
  constructor
  · intro hleft
    constructor
    · intro body hbody
      obtain ⟨qs,hqs,p,hp,hprose⟩ :=
        @Cuts.over_unclosed Char _ _ _ _ _ '\x60' rest (by decide) (by decide) hcuts ⟨body,hbody⟩
      rw [← hrest,← htext] at hqs
      have hsame : Scan.tagged.pieces text = qs := hqs.eq_pieces (by decide)
      obtain ⟨q,hq,hread⟩ := h.at_first hpieces
      refine hread (hleft _ p q ?_ hprose hq)
      rw [Scan.pieceAt,hsame]
      exact hp
    · rintro ⟨a,b,hab⟩
      have hopen : text = (textOf fence fence before ++ a) ++ toolCallOpen ++ b := by
        rw [htext,← hab]
        simp
      obtain ⟨p,hp,hprose⟩ := (Scan.tagged.cuts text).at_opening (by decide) hopen
      have hchar : (textOf fence fence after)[a.length]? = some '<' := by
        rw [← hab,List.append_assoc,List.getElem?_append_right (le_refl _),Nat.sub_self]
        rfl
      obtain ⟨q,hq,hread⟩ := h.at_ink hpieces hchar (by decide)
      rw [List.length_append] at hp
      exact hread (hleft _ p q hp hprose hq)
  · rintro ⟨hclosed,hnone⟩ i p q hp hprose hq
    by_contra hread
    have hbehind := h.behind hpieces hq hread
    rw [hrest] at hnone
    obtain ⟨qs,hqs,hafter⟩ := hcuts.beyond_closed (by decide) hnone hclosed
    rw [← hrest,← htext] at hqs
    have hsame : Scan.tagged.pieces text = qs := hqs.eq_pieces (by decide)
    rw [Scan.pieceAt,hsame] at hp
    rw [hafter i p hbehind hp] at hprose
    cases hprose

end left

/-- A text whose calls stand in fences: the fences stand apart from its tool-call blocks. -/
def Clear (tools : List ToolSchema) (text : List Char) : Prop :=
  (∀ p ∈ Scan.tagged.pieces text, Scan.tagged.reads tools p = []) → ∀ before after,
    Scan.fenced.pieces text = before ++ after → Trailing tools before after → Apart before after

section safe

lemma offered_of_schemaOffers {name : String} (h : schemaOffers tools name = true) :
    ∃ t ∈ tools, t.name = name := by
  simpa [schemaOffers] using h

/-- Every call that a piece is read as names an offered tool and has an object for its arguments. -/
lemma reads_spec {scan : Scan} {p : Piece Char} {c : ToolCallBlock} (h : c ∈ scan.reads tools p) :
    (∃ t ∈ tools, t.name = c.name) ∧ IsObject c.arguments := by
  cases p with
  | prose text =>
    rw [reads_prose] at h
    cases h
  | unclosed body =>
    rw [reads_unclosed] at h
    cases h
  | block body =>
    cases scan with
    | tagged =>
      cases hparse : parseCallPayload (Runes.trimSpace body) tools with
      | none =>
        rw [reads_tagged_none hparse] at h
        cases h
      | some calls =>
        rw [(reads_tagged_some hparse).1] at h
        obtain ⟨d,hd,rfl⟩ := List.mem_map.mp h
        obtain ⟨hoffers,hobject⟩ := (parseCallPayload_spec hparse).2.1 d hd
        exact ⟨offered_of_schemaOffers hoffers,hobject⟩
    | fenced =>
      cases hcall : fenceCall tools body with
      | none =>
        rw [reads_fenced_none hcall] at h
        cases h
      | some call =>
        rw [reads_fenced_some hcall,List.mem_singleton] at h
        subst h
        obtain ⟨hoffers,hobject⟩ := fenceCall_spec hcall
        exact ⟨offered_of_schemaOffers hoffers,hobject⟩

lemma flatMap_spec {scan : Scan} {ps : List (Piece Char)} {c : ToolCallBlock}
    (h : c ∈ ps.flatMap (scan.reads tools)) :
    (∃ t ∈ tools, t.name = c.name) ∧ IsObject c.arguments := by
  obtain ⟨p,-,hc⟩ := List.mem_flatMap.mp h
  exact reads_spec hc

/-- The functions of a block are read together or not at all. -/
lemma reads_together {body : List Char} (hpre : functionOpen <+: Runes.trimSpace body) :
    Scan.tagged.reads tools (.block body) = [] ∨
    (Scan.tagged.reads tools (.block body)).map (fun c => c.name.toList) = functionNames
    (Runes.trimSpace body) := by
  cases hparse : parseCallPayload (Runes.trimSpace body) tools with
  | none => exact .inl (reads_tagged_none hparse)
  | some calls =>
    right
    rw [(reads_tagged_some hparse).1,List.map_map]
    exact (parseCallPayload_spec hparse).2.2 hpre

lemma clear_of_safe {raw : List Char} (h : Safe tools raw (extractFallbackToolCalls raw tools).1
    (extractFallbackToolCalls raw tools).2.1) : Clear tools (Runes.trimSpace raw) := by
  intro hnone before after hpieces htrailing
  have htagged : (Scan.tagged.pieces (Runes.trimSpace raw)).flatMap
    (Scan.tagged.reads tools) = [] :=
    List.flatMap_eq_nil_iff.mpr hnone
  obtain ⟨fmt,hread,-⟩ | ⟨-,-,heq⟩ | ⟨-,hno,-⟩ := extractFallbackToolCalls_cases raw tools
  · exact absurd htagged hread
  · rw [heq] at h
    have hne : (Scan.fenced.pieces (Runes.trimSpace raw)).flatMap (Scan.fenced.reads tools) ≠
      [] := by
      rw [hpieces]
      exact htrailing.flatMap_ne
    obtain ⟨hnil,-⟩ | ⟨scan,hscan⟩ := h.conservative
    · exact absurd hnil hne
    · cases scan with
      | tagged => exact absurd (hscan.calls.trans htagged) hne
      | fenced => exact (htrailing.leftAlone_iff hpieces).mp (hscan.left rfl)
  · exact absurd htrailing (hno before after hpieces)

lemma safe_of_clear {raw : List Char} (h : Clear tools (Runes.trimSpace raw)) :
    Safe tools raw (extractFallbackToolCalls raw tools).1
    (extractFallbackToolCalls raw tools).2.1 := by
  obtain ⟨fmt,-,heq⟩ | ⟨hnone,⟨before,after,hpieces,htrailing⟩,heq⟩ | ⟨-,-,heq⟩ :=
    extractFallbackToolCalls_cases raw tools
  · rw [heq]
    refine ⟨fun c hc => (flatMap_spec hc).1,fun c hc => (flatMap_spec hc).2,
      .inr ⟨.tagged,rfl,rfl,?_,?_⟩⟩
    · exact fun body _ hpre => reads_together hpre
    · rintro ⟨⟩
  · rw [heq]
    refine ⟨fun c hc => (flatMap_spec hc).1,fun c hc => (flatMap_spec hc).2,
      .inr ⟨.fenced,rfl,rfl,?_,?_⟩⟩
    · exact fun body _ hpre => reads_together hpre
    · intro _
      exact (htrailing.leftAlone_iff hpieces).mpr
        (h (List.flatMap_eq_nil_iff.mp hnone) before after hpieces htrailing)
  · rw [heq]
    refine ⟨?_,?_,.inl ⟨rfl,rfl⟩⟩
    · intro c hc
      cases hc
    · intro c hc
      cases hc

/-- Recovery is safe and conservative exactly where the fences that are read as calls stand apart
from the tool-call blocks of the text. -/
theorem recovery_safe_iff (raw : List Char) (tools : List ToolSchema) :
    Safe tools raw (extractFallbackToolCalls raw tools).1 (extractFallbackToolCalls raw tools).2.1 ↔
      Clear tools (Runes.trimSpace raw) :=
  ⟨clear_of_safe,safe_of_clear⟩

/-- A reply that was cut off behind the fence in its tool-call block. -/
def truncatedHead : List Char := ['<','t','o','o','l','_','c','a','l','l','>','\n']

def truncatedBody : List Char :=
  ['j','s','o','n','\n','\x7b','"','n','a','m','e','"',':','"','l','s','"','\x7d','\n']

def truncatedReply : List Char := truncatedHead ++ fence ++ truncatedBody ++ fence

def listTool : ToolSchema := ⟨"ls",[]⟩

/-- A call is recovered from the truncated block, and of the block only its tag is left. -/
theorem truncated_block_loses_fence :
    extractFallbackToolCalls truncatedReply [listTool] = (toolCallOpen,[⟨"ls",['\x7b','\x7d']⟩],
      .fencedJSON) ∧
    ¬ Safe [listTool] truncatedReply (extractFallbackToolCalls truncatedReply [listTool]).1
      (extractFallbackToolCalls truncatedReply [listTool]).2.1 := by
  refine ⟨by decide,?_⟩
  intro h
  have hnone : ∀ p ∈ Scan.tagged.pieces (Runes.trimSpace truncatedReply),
    Scan.tagged.reads [listTool] p = [] := by
    decide
  have hpieces : Scan.fenced.pieces (Runes.trimSpace truncatedReply) =
      [.prose truncatedHead] ++ [.block truncatedBody,.prose []] := by decide
  have htrailing : Trailing [listTool] [.prose truncatedHead] [.block truncatedBody,.prose []] :=
    ⟨by decide,⟨_,_,rfl,by decide⟩,by decide⟩
  have hopen : .unclosed ['\n'] ∈ Scan.tagged.pieces
    (textOf fence fence [.prose truncatedHead]) := by decide
  exact (clear_of_safe h hnone _ _ hpieces htrailing).1 _ hopen

end safe

end Manvi.OpenAICompat.Recovery
