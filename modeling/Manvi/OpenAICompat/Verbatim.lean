import Manvi.Encoding.Spans
import Manvi.OpenAICompat.TagStream

/-! What the filter emits against what it is fed: framing goes, tool-call blocks stay whole, and
little is held back. -/
namespace Manvi.OpenAICompat
open Manvi.Encoding

/-- The tags that are framing. -/
def allTags : List Bytes := openTags ++ closeTags

namespace TagFilter

/-- A marker takes some of the data. -/
lemma firstMarker_shorter {tags : List Bytes} (hm : Markers lt tags) {data p t r : Bytes}
    (h : firstMarker tags data = some (p,t,r)) : r.length < data.length := by
  obtain ⟨hdata,ht⟩ := firstMarker_some h
  obtain ⟨body,hbody,_⟩ := hm.lead t ht
  rw [hdata,hbody]
  simp only [List.length_append,List.length_cons]
  omega

/-- The bytes of some chunks in the order they were emitted, whichever channel they are on. -/
def said (out : List FilteredChunk) : Bytes := out.flatMap (fun c => c.text ++ c.reasoning)

/-- The chunks a stream emits, the flushed one last. -/
def emitted (f : TagFilter) (deltas : List Bytes) : List FilteredChunk :=
  (f.feedAll deltas).2 ++ [(f.feedAll deltas).1.flush]

/-- A chunk that is on one channel, the reasoning one or the visible one. -/
def onSide (thinking : Bool) (c : FilteredChunk) : Prop :=
  if thinking then c.text = [] else c.reasoning = []

/-- A payload up to and including the first closing marker, or up to its end. -/
def throughClose (data : Bytes) : Bytes := match index data toolCallClose with
  | some i => data.take (i+toolCallClose.length)
  | none => data

@[simp] lemma said_append (a b : List FilteredChunk) : said (a ++ b) = said a ++ said b :=
    List.flatMap_append

@[simp] lemma said_singleton (f : TagFilter) (s : Bytes) : said [f.classify s] = s := by
  unfold said classify
  split_ifs <;> simp

lemma said_put (f : TagFilter) (s : Bytes) : said (f.put s).2 = s := by
  unfold put
  by_cases hs : s.isEmpty
  · rw [if_pos hs,List.isEmpty_iff.mp hs]
    rfl
  · rw [if_neg hs]
    exact said_singleton f s

lemma said_flush (f : TagFilter) : said [f.flush] = f.carry := by
  unfold flush
  by_cases hc : f.carry.isEmpty
  · rw [if_pos hc,List.isEmpty_iff.mp hc]
    rfl
  · rw [if_neg hc]
    exact said_singleton f f.carry

/-- At a tag, the run before it is emitted, and the tag too unless it is framing. -/
lemma said_hit {f : TagFilter} {p t r : Bytes} (ht : t ∈ f.tags) :
    said (f.hit p t r).2 = p ++ t ∨ said (f.hit p t r).2 = p ∧ t ∈ allTags := by
  unfold hit
  by_cases htool : f.inToolCall
  · rw [if_pos htool]
    exact .inl (said_singleton f (p ++ t))
  rw [tags,if_neg htool] at ht
  rw [if_neg htool]
  by_cases hcall : t = toolCallOpen
  · rw [if_pos hcall,openToolCall]
    dsimp only
    rw [said_append,said_put,said_singleton]
    exact .inl rfl
  have hall : t ∈ allTags := by
    cases carryTags_cases ht with
    | inl h => exact absurd h.1 hcall
    | inr h => cases h with
      | inl h => exact List.mem_append_right _ h.2.1
      | inr h => exact List.mem_append_left _ h.2.2
  rw [if_neg hcall]
  split_ifs with hclose hthink hthink
  · exact .inr ⟨said_put f p,hall⟩
  · unfold strayClose
    generalize (if f.resolved then f else { f with resolved := true, prefillSuspected := true }) = g
    by_cases hfuse : wouldFuse (g.visibleTail ++ p) r = true
    · rw [if_pos hfuse]
      exact .inl (by simp [said])
    · rw [if_neg hfuse]
      exact .inr ⟨said_put g p,hall⟩
  · exact .inr ⟨said_put f p,hall⟩
  · exact .inr ⟨said_put _ p,hall⟩

/-- With no tag left, what is emitted and what is carried are the data. -/
lemma said_settle {f : TagFilter} (hc : f.carry = []) (data : Bytes) (tags : List Bytes) :
    data = said (f.settle data tags).2 ++ (f.settle data tags).1.carry := by
  unfold settle
  dsimp only
  split_ifs with hn
  · rw [said_put,List.take_append_drop]
  · rw [said_put,(put_eq f data).1]
    dsimp only
    rw [hc,List.append_nil]

/-- The passes over some data emit it less some framing, up to what they carry. -/
lemma said_loop {n : ℕ} {f : TagFilter} {data : Bytes} (hc : f.carry = []) (h : data.length ≤ n) :
    ∃ done, data = done ++ (loop n f data).1.carry ∧
    Without allTags done (said (loop n f data).2) := by
  induction n generalizing f data with
  | zero =>
    have hnil : data = [] := List.length_eq_zero_iff.mp (by omega)
    rw [hnil,loop]
    exact ⟨[],hc.symm,.nil⟩
  | succ n ih =>
    unfold loop
    by_cases hd : data.isEmpty
    · rw [if_pos hd,List.isEmpty_iff.mp hd]
      exact ⟨[],hc.symm,.nil⟩
    · rw [if_neg hd]
      cases hm : firstMarker f.tags data with
      | none =>
        rw [advance_settle hm]
        exact ⟨_,said_settle hc data f.tags,.refl _⟩
      | some m =>
        obtain ⟨p,t,r⟩ := m
        rw [advance_hit hm]
        dsimp only
        obtain ⟨hdata,ht⟩ := firstMarker_some hm
        have hlen : r.length ≤ n := by
          have := firstMarker_shorter f.markers_tags hm
          omega
        obtain ⟨done,hdone,hrest⟩ := ih ((hit_keeps f p t r).1.trans hc) hlen
        refine ⟨p ++ (t ++ done),?_,?_⟩
        · rw [List.append_assoc,List.append_assoc,← hdone,hdata,List.append_assoc]
        · rw [said_append]
          cases said_hit (p := p) (r := r) ht with
          | inl hkept =>
            rw [hkept,List.append_assoc]
            exact .keep_append p (.keep_append t hrest)
          | inr hgone =>
            rw [hgone.1]
            exact .keep_append p (.take hgone.2 hrest)

lemma start_carry (f : TagFilter) : f.start.carry = f.carry := by
  unfold start
  split_ifs <;> rfl

@[simp] lemma emitted_cons (f : TagFilter) (d : Bytes) (deltas : List Bytes) :
    f.emitted (d :: deltas) = (f.feed d).2 ++ (f.feed d).1.emitted deltas := by
  rw [emitted,feedAll]
  exact List.append_assoc _ _ _

/-- A stream emits what it is fed less some framing. -/
lemma said_emitted (f : TagFilter) (deltas : List Bytes) :
    Without allTags (f.carry ++ deltas.flatten) (said (f.emitted deltas)) := by
  induction deltas generalizing f with
  | nil =>
    rw [List.flatten_nil,List.append_nil,← said_flush]
    exact .refl _
  | cons d deltas ih =>
    have hfeed : ∃ done, f.start.carry ++ d = done ++ (f.feed d).1.carry ∧
      Without allTags done (said (f.feed d).2) := said_loop rfl (le_refl _)
    obtain ⟨done,hdone,hsaid⟩ := hfeed
    rw [start_carry] at hdone
    rw [emitted_cons,said_append,List.flatten_cons,← List.append_assoc,hdone,List.append_assoc]
    exact hsaid.append (ih (f.feed d).1)

/-! The filter in the middle of a stream. -/

/-- The number of passes makes no difference once it covers the data. -/
lemma loop_fuel {n m : ℕ} {f : TagFilter} {data : Bytes} (hn : data.length ≤ n)
    (hm : data.length ≤ m) :
    loop n f data = loop m f data := by
  induction n generalizing m f data with
  | zero =>
    rw [List.length_eq_zero_iff.mp (Nat.le_zero.mp hn)]
    cases m <;> rfl
  | succ n ih =>
    cases data with
    | nil => cases m <;> rfl
    | cons x data =>
      cases m with
      | zero => cases hm
      | succ m =>
        rw [loop,loop]
        cases hf : firstMarker f.tags (x :: data) with
        | none => rw [advance_settle hf]
        | some found =>
          obtain ⟨p,t,r⟩ := found
          have hlen := firstMarker_shorter f.markers_tags hf
          have hsame : loop n (f.hit p t r).1 r = loop m (f.hit p t r).1 r :=
            ih (by omega) (by omega)
          rw [advance_hit hf]
          dsimp only
          rw [hsame]

lemma loop_hit {f : TagFilter} {data p t r : Bytes} (h : firstMarker f.tags data = some (p,t,r)) :
    loop data.length f data = ((loop r.length (f.hit p t r).1 r).1,
      (f.hit p t r).2 ++ (loop r.length (f.hit p t r).1 r).2) := by
  have hlen := firstMarker_shorter f.markers_tags h
  cases data with
  | nil => cases hlen
  | cons x data =>
    rw [List.length_cons] at hlen
    have hsame : loop data.length (f.hit p t r).1 r = loop r.length (f.hit p t r).1 r :=
      loop_fuel (by omega) (le_refl _)
    rw [List.length_cons,loop,advance_hit h,← hsame]
    rfl

lemma loop_settle {f : TagFilter} {data : Bytes} (h : firstMarker f.tags data = none) :
    loop data.length f data = f.settle data f.tags := by
  cases data with
  | nil => exact (settle_nil f f.tags).symm
  | cons x data =>
    rw [List.length_cons,loop,advance_settle h]
    rfl

/-- A stream being read: what is left of the delta at hand, with what was carried into it, the
deltas that have not arrived, and what was emitted so far. -/
structure Reading where
  filter : TagFilter
  data : Bytes
  deltas : List Bytes
  out : List FilteredChunk

namespace Reading

/-- One pass over the delta at hand, or the arrival of the next. -/
def step (s : Reading) : Option Reading :=
  if s.data.isEmpty then match s.deltas with
    | [] => none
    | d :: deltas => some ⟨{ s.filter.start with carry := [] },s.filter.start.carry ++ d,deltas,
      s.out⟩
  else match s.filter.advance s.data with
    | (r,none) => some ⟨r.1,[],s.deltas,s.out ++ r.2⟩
    | (r,some rest) => some ⟨r.1,rest,s.deltas,s.out ++ r.2⟩

/-- A stream none of which has arrived. -/
def begin (assumePrefill : Bool) (deltas : List Bytes) : Reading :=
  ⟨TagFilter.new assumePrefill,[],deltas,[]⟩

/-- The readings a stream goes through. -/
def Reaches : Reading → Reading → Prop := Relation.ReflTransGen (fun s t => s.step = some t)

/-- The chunks still to come. -/
def ahead (s : Reading) : List FilteredChunk :=
  (loop s.data.length s.filter s.data).2 ++ (loop s.data.length s.filter s.data).1.emitted s.deltas

/-- The input that has not been passed over. -/
def left (s : Reading) : Bytes := s.data ++ s.deltas.flatten

variable {s t : Reading}

/-- What a step can do: take the next delta, pass over a tag, or settle. -/
lemma step_cases (h : s.step = some t) :
    (∃ d deltas, s.data = [] ∧ s.deltas = d :: deltas ∧
      t = ⟨{ s.filter.start with carry := [] },s.filter.start.carry ++ d,deltas,s.out⟩) ∨
    (∃ p tag r, firstMarker s.filter.tags s.data = some (p,tag,r) ∧
      t = ⟨(s.filter.hit p tag r).1,r,s.deltas,s.out ++ (s.filter.hit p tag r).2⟩) ∨
    (s.data ≠ [] ∧ firstMarker s.filter.tags s.data = none ∧
      t = ⟨(s.filter.settle s.data s.filter.tags).1,[],s.deltas,
        s.out ++ (s.filter.settle s.data s.filter.tags).2⟩) := by
  unfold step at h
  by_cases hd : s.data.isEmpty
  · rw [if_pos hd] at h
    cases hs : s.deltas with
    | nil => rw [hs] at h; cases h
    | cons d deltas =>
      rw [hs] at h
      exact .inl ⟨d,deltas,List.isEmpty_iff.mp hd,rfl,(Option.some.inj h).symm⟩
  · rw [if_neg hd] at h
    cases hm : firstMarker s.filter.tags s.data with
    | none =>
      rw [advance_settle hm] at h
      refine .inr (.inr ⟨?_,rfl,(Option.some.inj h).symm⟩)
      intro hnil
      rw [hnil] at hd
      exact hd rfl
    | some found =>
      obtain ⟨p,tag,r⟩ := found
      rw [advance_hit hm] at h
      exact .inr (.inl ⟨p,tag,r,rfl,(Option.some.inj h).symm⟩)

/-- A step only moves chunks from what is to come to what was emitted. -/
lemma step_ahead (h : s.step = some t) : t.out ++ t.ahead = s.out ++ s.ahead := by
  obtain ⟨d,deltas,hdata,hdeltas,rfl⟩ | ⟨p,tag,r,hm,rfl⟩ | ⟨hne,hm,rfl⟩ := step_cases h
  · have hnow : s.ahead = s.filter.emitted (d :: deltas) := by
      rw [ahead,hdata,hdeltas]
      rfl
    rw [hnow,emitted_cons]
    rfl
  · rw [ahead,ahead,loop_hit hm]
    simp only [List.append_assoc]
  · rw [ahead,ahead,loop_settle hm]
    simp [loop]

end Reading

/-! Tool-call blocks. -/

lemma classify_onSide (f : TagFilter) (s : Bytes) : onSide f.inThink (f.classify s) := by
  unfold onSide classify
  split_ifs <;> rfl

lemma put_onSide (f : TagFilter) (s : Bytes) : ∀ c ∈ (f.put s).2, onSide f.inThink c := by
  intro c hc
  unfold put at hc
  split_ifs at hc
  · cases hc
  · rw [List.mem_singleton.mp hc]
    exact classify_onSide f s

lemma flush_onSide (f : TagFilter) : onSide f.inThink f.flush := by
  unfold flush
  split_ifs
  · unfold onSide
    split_ifs <;> rfl
  · exact classify_onSide f f.carry

lemma settle_onSide (f : TagFilter) (data : Bytes) (tags : List Bytes) :
    ∀ c ∈ (f.settle data tags).2, onSide f.inThink c := by
  unfold settle
  dsimp only
  split_ifs
  · exact put_onSide f _
  · exact put_onSide f _

lemma throughClose_eq (data : Bytes) : throughClose data =
    ((firstMarker [toolCallClose] data).map (fun m => m.1 ++ m.2.1)).getD data := by
  unfold throughClose
  have hmem : toolCallClose ∈ [toolCallClose] := List.mem_singleton_self _
  cases h : firstMarker [toolCallClose] data with
  | none =>
    rw [index_of_firstMarker_none markers_toolCallClose h hmem]
    rfl
  | some m =>
    obtain ⟨p,t,r⟩ := m
    obtain ⟨hdata,ht⟩ := firstMarker_some h
    rw [List.mem_singleton] at ht
    have hi := index_of_firstMarker markers_toolCallClose h hmem
    rw [if_pos ht.symm] at hi
    rw [hi]
    dsimp only [Option.map_some,Option.getD_some]
    rw [hdata,← ht,← List.length_append,List.take_left]

/-- What is to come of a block: it is emitted whole, on one side. -/
def Whole (f : TagFilter) (data : Bytes) (deltas : List Bytes) : Prop :=
  ∃ body later, (Reading.mk f data deltas []).ahead = body ++ later ∧
    said body = throughClose (data ++ deltas.flatten) ∧ ∀ c ∈ body, onSide f.inThink c

section block
variable {f : TagFilter} {data : Bytes}

lemma tags_of_inToolCall (h : f.inToolCall = true) :
    f.tags = [toolCallClose] := by rw [tags,if_pos h]

/-- A block that closes in the delta at hand. -/
lemma whole_of_hit (htool : f.inToolCall = true) {p t r : Bytes}
    (h : firstMarker f.tags data = some (p,t,r)) (deltas : List Bytes) : Whole f data deltas := by
  have hhit : (f.hit p t r).2 = [f.classify (p ++ t)] := by
    rw [hit,if_pos htool]
    rfl
  refine ⟨[f.classify (p ++ t)],(loop r.length (f.hit p t r).1 r).2 ++
    (loop r.length (f.hit p t r).1 r).1.emitted deltas,?_,?_,?_⟩
  · rw [Reading.ahead,loop_hit h,hhit,List.append_assoc]
  · have hmore := firstMarker_append f.markers_tags h deltas.flatten
    rw [tags_of_inToolCall htool] at hmore
    rw [said_singleton,throughClose_eq,hmore]
    rfl
  · intro c hc
    rw [List.mem_singleton.mp hc]
    exact classify_onSide f (p ++ t)

/-- A block that stays open over the delta at hand: its bytes are emitted but for those that may
begin the closing marker. -/
lemma settle_block (hc : f.carry = []) (h : firstMarker f.tags data = none) :
    ∃ safe, data = safe ++ held f.tags data ∧ said (f.settle data f.tags).2 = safe ∧
      (f.settle data f.tags).1 = { f.past safe with carry := held f.tags data } := by
  obtain ⟨safe,hdata,_⟩ := firstMarker_held h []
  have hstate := (settle_eq hc hdata).1
  have hsaid := said_settle hc data f.tags
  rw [hstate] at hsaid
  refine ⟨safe,hdata,?_,hstate⟩
  have hboth := hsaid.symm.trans hdata
  exact List.append_cancel_right hboth

/-- The block at hand is emitted whole and on the side it was opened on, whatever arrives. -/
lemma whole_of_inToolCall (htool : f.inToolCall = true) (hs : f.started = true) (hc : f.carry = [])
    (data : Bytes) (deltas : List Bytes) : Whole f data deltas := by
  induction deltas generalizing f data with
  | nil =>
    cases hm : firstMarker f.tags data with
    | some m => exact whole_of_hit htool hm []
    | none =>
      have hside : (f.settle data f.tags).1.inThink = f.inThink := by
        obtain ⟨safe,_,_,hstate⟩ := settle_block hc hm
        rw [hstate]
        rfl
      refine ⟨(f.settle data f.tags).2 ++ [(f.settle data f.tags).1.flush],[],?_,?_,?_⟩
      · rw [Reading.ahead,loop_settle hm,List.append_nil]
        rfl
      · rw [said_append,said_flush,← said_settle hc,throughClose_eq,List.flatten_nil,
          List.append_nil,
          ← tags_of_inToolCall htool,hm]
        rfl
      · intro c hmem
        cases List.mem_append.mp hmem with
        | inl hmem => exact settle_onSide f data f.tags c hmem
        | inr hmem =>
          rw [List.mem_singleton.mp hmem,← hside]
          exact flush_onSide _
  | cons d deltas ih =>
    cases hm : firstMarker f.tags data with
    | some m => exact whole_of_hit htool hm (d :: deltas)
    | none =>
      obtain ⟨safe,hdata,hsaid,hstate⟩ := settle_block hc hm
      have hnext : Whole { f.past safe with carry := [] } (held f.tags data ++ d) deltas :=
        ih (f := { f.past safe with carry := [] }) htool hs rfl _
      obtain ⟨body,later,hahead,hbody,hon⟩ := hnext
      refine ⟨(f.settle data f.tags).2 ++ body,later,?_,?_,?_⟩
      · have hstart : (f.settle data f.tags).1.start = (f.settle data f.tags).1 := by
          apply start_of_started
          rw [hstate]
          exact hs
        rw [List.append_assoc,← hahead,Reading.ahead,loop_settle hm]
        dsimp only
        rw [emitted_cons,feed,hstart,hstate]
        rfl
      · obtain ⟨safe',hdata',hmap⟩ := firstMarker_held hm (d :: deltas).flatten
        have hsafe : safe' = safe := List.append_cancel_right (hdata'.symm.trans hdata)
        rw [hsafe,tags_of_inToolCall htool] at hmap
        rw [tags_of_inToolCall htool] at hbody hdata
        rw [said_append,hsaid,hbody,throughClose_eq,throughClose_eq,hmap,List.append_assoc,
          ← List.flatten_cons]
        cases firstMarker [toolCallClose] (held [toolCallClose] data ++ (d :: deltas).flatten) with
        | some m =>
          dsimp only [Option.map_some,Option.getD_some]
          rw [List.append_assoc]
        | none =>
          dsimp only [Option.map_none,Option.getD_none]
          rw [← List.append_assoc,← hdata]
      · intro c hmem
        cases List.mem_append.mp hmem with
        | inl hmem => exact settle_onSide f data f.tags c hmem
        | inr hmem => exact hon c hmem

end block

/-- Only an opening marker opens a block; it is emitted behind the run before it. -/
lemma hit_opens {f : TagFilter} {p t r : Bytes} (ht : f.inToolCall = false)
    (h : (f.hit p t r).1.inToolCall = true) :
    t = toolCallOpen ∧ (f.hit p t r).1.inThink = f.inThink ∧
      (f.hit p t r).2 = (f.put p).2 ++ [f.classify t] := by
  have hput : ∀ g : TagFilter, (g.put p).1.inToolCall = g.inToolCall := by
    intro g
    rw [(put_eq g p).1]
  have hno : ¬ f.inToolCall = true := by rw [ht]; simp
  by_cases hcall : t = toolCallOpen
  · rw [hit,if_neg hno,if_pos hcall,openToolCall]
    dsimp only
    rw [emit_classify,(put_eq f p).1]
    exact ⟨hcall,rfl,rfl⟩
  · exfalso
    rw [hit,if_neg hno,if_neg hcall] at h
    split_ifs at h with hclose hthink hthink
    · rw [closeThink] at h
      dsimp only at h
      split_ifs at h
      · exact hno ((hput f).symm.trans h)
      · exact hno ((hput f).symm.trans h)
    · unfold strayClose at h
      have hsame : (if f.resolved then f else
          { f with resolved := true, prefillSuspected := true }).inToolCall = f.inToolCall := by
        split_ifs <;> rfl
      revert h hsame
      generalize (if f.resolved then
        f else { f with resolved := true, prefillSuspected := true }) = g
      intro h hsame
      dsimp only at h
      split_ifs at h
      · rw [emit_eq] at h
        exact hno (hsame.symm.trans h)
      · exact hno (hsame.symm.trans ((hput g).symm.trans h))
    · exact hno ((hput f).symm.trans h)
    · exact hno ((hput { f with resolved := true, assumed := false }).symm.trans h)

namespace Reading
variable {s t : Reading} {all : List FilteredChunk}

/-- What holds at every moment of a stream that emits the given chunks. -/
structure Inv (all : List FilteredChunk) (s : Reading) : Prop where
  total : s.out ++ s.ahead = all
  idle : s.data ≠ [] → s.filter.carry = [] ∧ s.filter.started = true
  short : s.filter.carry.length ≤ 11

lemma held_short (f : TagFilter) (data : Bytes) : (held f.tags data).length ≤ 11 := by
  have hlen : ∀ tag ∈ f.tags, tag.length ≤ 12 := by
    unfold tags
    split_ifs
    · decide
    · decide
  cases @held_begun _ _ f.tags data with
  | inl hnil =>
    rw [hnil]
    exact Nat.zero_le 11
  | inr hbegun =>
    obtain ⟨tag,hmem,_,hlt,_⟩ := hbegun
    have := hlen tag hmem
    omega

lemma Inv.step (hi : Inv all s) (h : s.step = some t) : Inv all t := by
  refine ⟨(step_ahead h).trans hi.total,?_,?_⟩
  · obtain ⟨d,deltas,hdata,hdeltas,rfl⟩ | ⟨p,tag,r,hm,rfl⟩ | ⟨hne,hm,rfl⟩ := step_cases h
    · intro _
      exact ⟨rfl,start_started s.filter⟩
    · intro _
      have hne : s.data ≠ [] := by
        intro hnil
        rw [hnil] at hm
        cases hm
      obtain ⟨hcarry,hstarted⟩ := hi.idle hne
      obtain ⟨hkc,hks⟩ := hit_keeps s.filter p tag r
      exact ⟨hkc.trans hcarry,hks.trans hstarted⟩
    · intro hnil
      exact absurd rfl hnil
  · obtain ⟨d,deltas,hdata,hdeltas,rfl⟩ | ⟨p,tag,r,hm,rfl⟩ | ⟨hne,hm,rfl⟩ := step_cases h
    · exact Nat.zero_le 11
    · dsimp only
      rw [(hit_keeps s.filter p tag r).1]
      exact hi.short
    · obtain ⟨safe,_,_,hstate⟩ := settle_block (hi.idle hne).1 hm
      dsimp only
      rw [hstate]
      exact held_short s.filter s.data

lemma Reaches.inv {assumePrefill : Bool} {deltas : List Bytes}
    (h : Reaches (begin assumePrefill deltas) s) :
    Inv ((TagFilter.new assumePrefill).emitted deltas) s := by
  induction h with
  | refl => exact ⟨rfl,fun hne => absurd rfl hne,Nat.zero_le 11⟩
  | tail _ hstep ih => exact ih.step hstep

/-- A step that opens a block: the block is emitted whole, behind the run before it. -/
lemma Inv.opened (hi : Inv all s) (h : s.step = some t) (hs : s.filter.inToolCall = false)
    (ht : t.filter.inToolCall = true) : ∃ run opener body later thinking,
      s.data = said run ++ toolCallOpen ++ t.data ∧ t.out = s.out ++ run ++ [opener] ∧
      all = s.out ++ run ++ (opener :: body) ++ later ∧
      said (opener :: body) = toolCallOpen ++ throughClose t.left ∧
      ∀ c ∈ opener :: body, onSide thinking c := by
  have htotal := (hi.step h).total
  obtain ⟨d,deltas,hdata,hdeltas,rfl⟩ | ⟨p,tag,r,hm,rfl⟩ | ⟨hne,hm,rfl⟩ := step_cases h
  · exfalso
    have hsame : s.filter.start.inToolCall = s.filter.inToolCall := by
      unfold start
      split_ifs <;> rfl
    rw [hsame.trans hs] at ht
    cases ht
  · obtain ⟨hdata,hmem⟩ := firstMarker_some hm
    obtain ⟨htag,hside,hout⟩ := hit_opens hs ht
    have hne : s.data ≠ [] := by
      intro hnil
      rw [hnil] at hm
      cases hm
    obtain ⟨hcarry,hstarted⟩ := hi.idle hne
    obtain ⟨hkc,hks⟩ := hit_keeps s.filter p tag r
    obtain ⟨body,later,hahead,hbody,hon⟩ :=
      whole_of_inToolCall ht (hks.trans hstarted) (hkc.trans hcarry) r s.deltas
    refine ⟨(s.filter.put p).2,s.filter.classify tag,body,later,s.filter.inThink,?_,?_,?_,?_,?_⟩
    · rw [said_put,← htag]
      exact hdata
    · dsimp only
      rw [hout,List.append_assoc]
    · have hsame : (Reading.mk (s.filter.hit p tag r).1 r s.deltas (s.out ++
        (s.filter.hit p tag r).2)).ahead =
          body ++ later := hahead
      rw [← htotal,hsame,hout]
      simp
    · have hcons : s.filter.classify tag :: body = [s.filter.classify tag] ++ body := rfl
      rw [hcons,said_append,said_singleton,hbody,htag]
      rfl
    · intro c hc
      cases List.mem_cons.mp hc with
      | inl hc =>
        rw [hc]
        exact classify_onSide s.filter tag
      | inr hc =>
        rw [← hside]
        exact hon c hc
  · exfalso
    obtain ⟨safe,_,_,hstate⟩ := settle_block (hi.idle hne).1 hm
    rw [hstate] at ht
    rw [show s.filter.inToolCall = true from ht] at hs
    cases hs

end Reading

end TagFilter

open TagFilter in
/-- For every stream, what is emitted, over both channels, is what was fed less some disjoint
framing tags; each tool-call block is emitted whole on one channel from its opening marker through
the first closing one, or to the end; and at every moment at most 11 bytes are held. -/
theorem emitted_exact (assumePrefill : Bool) (deltas : List Bytes) :
    Without allTags deltas.flatten (said ((TagFilter.new assumePrefill).emitted deltas)) ∧
    (∀ s t, Reading.Reaches (.begin assumePrefill deltas) s → s.step = some t →
      s.filter.inToolCall = false → t.filter.inToolCall = true → ∃ run opener body later thinking,
        s.data = said run ++ toolCallOpen ++ t.data ∧ t.out = s.out ++ run ++ [opener] ∧
        (TagFilter.new assumePrefill).emitted deltas = s.out ++ run ++ (opener :: body) ++ later ∧
        said (opener :: body) = toolCallOpen ++ throughClose t.left ∧
        ∀ c ∈ opener :: body, onSide thinking c) ∧
    ∀ s, Reading.Reaches (.begin assumePrefill deltas) s → s.filter.carry.length ≤ 11 :=
  ⟨said_emitted (TagFilter.new assumePrefill) deltas,fun _ _ hs h => hs.inv.opened h,
    fun _ hs => hs.inv.short⟩

end Manvi.OpenAICompat
