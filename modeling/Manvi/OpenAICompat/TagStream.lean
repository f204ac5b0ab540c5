import Manvi.OpenAICompat.TagFilter

/-! Feeding a text in deltas against feeding it whole. -/
namespace Manvi.OpenAICompat
open Manvi.Encoding

/-- The byte every tag begins with. -/
def lt : UInt8 := 60

/-- A tag opens with its lead and does not hold it again. -/
def leadOnly (t : Bytes) : Bool := t.head? = some lt ∧ lt ∉ t.tail

lemma markers_of_leadOnly {tags : List Bytes} (hl : tags.all leadOnly = true)
    (hf : tags.all (fun t => tags.all (fun u => !t.isPrefixOf u || t = u)) = true) :
    Markers lt tags where
  lead := by
    intro t ht
    have h := List.all_eq_true.mp hl t ht
    cases t with
    | nil => simp [leadOnly] at h
    | cons x body =>
      simp only [leadOnly,List.head?_cons,Option.some.injEq,List.tail_cons,decide_eq_true_eq] at h
      exact ⟨body,by rw [h.1],h.2⟩
  free := by
    intro t ht u hu hp
    have h := List.all_eq_true.mp (List.all_eq_true.mp hf t ht) u hu
    rw [List.isPrefixOf_iff_prefix.mpr hp] at h
    simpa using h

lemma markers_carryTags : Markers lt carryTags := markers_of_leadOnly (by decide) (by decide)

lemma markers_toolCallClose : Markers lt [toolCallClose] :=
  markers_of_leadOnly (by decide) (by decide)

namespace TagFilter

/-- The tags that end a pass. -/
def tags (f : TagFilter) : List Bytes := if f.inToolCall then [toolCallClose] else carryTags

lemma markers_tags (f : TagFilter) : Markers lt f.tags := by
  unfold tags
  split_ifs
  · exact markers_toolCallClose
  · exact markers_carryTags

/-- What a pass does at the first tag. -/
def hit (f : TagFilter) (before tag rest : Bytes) : TagFilter × List FilteredChunk :=
  if f.inToolCall then f.closeToolCall before tag
  else if tag = toolCallOpen then f.openToolCall before tag
  else if tag ∈ closeTags then
    if f.inThink then f.closeThink before else f.strayClose before tag rest
  else if f.inThink then f.nestThink before else f.openThink before

/-- An occurrence that may be missing is after the given position. -/
lemma all_after {n : ℕ} {found : Option (ℕ × ℕ)} (h : ∀ i l, found = some (i,l) → n < i) :
    found.all (fun o => n < o.1) = true := by
  cases found with
  | none => rfl
  | some o => simpa using h o.1 o.2 rfl

lemma filter_after {n : ℕ} {found : Option (ℕ × ℕ)} (h : ∀ i l, found = some (i,l) → n < i) :
    found.filter (fun o => o.1 < n) = none := by
  apply Option.filter_eq_none_iff.mpr
  intro o ho
  have := h o.1 o.2 ho
  simp only [decide_eq_true_eq]
  omega

section pass
variable {f : TagFilter} {data p t r : Bytes}

lemma carryTags_cases (ht : t ∈ carryTags) :
    (t = toolCallOpen ∧ t ∉ closeTags ∧ t ∉ openTags) ∨
    (t ≠ toolCallOpen ∧ t ∈ closeTags ∧ t ∉ openTags) ∨
    (t ≠ toolCallOpen ∧ t ∉ closeTags ∧ t ∈ openTags) := by
  revert t
  decide

lemma advance_hit (h : firstMarker f.tags data = some (p,t,r)) :
    f.advance data = (f.hit p t r,some r) := by
  obtain ⟨hdata,ht⟩ := firstMarker_some h
  have htake : data.take p.length = p := by rw [hdata]; simp
  have htag : (data.drop p.length).take t.length = t := by rw [hdata]; simp
  have hrest : data.drop (p.length+t.length) = r := by
    rw [hdata,← List.length_append]
    exact List.drop_left
  unfold advance hit
  by_cases htool : f.inToolCall
  · rw [tags,if_pos htool] at h ht
    rw [List.mem_singleton] at ht
    have hi := index_of_firstMarker markers_toolCallClose h (List.mem_singleton_self toolCallClose)
    rw [if_pos ht.symm] at hi
    rw [if_pos htool,if_pos htool,hi]
    simp only [← ht,htake,htag,hrest]
  · rw [tags,if_neg htool] at h ht
    rw [if_neg htool,if_neg htool]
    have hopens : ∀ u ∈ openTags, u ∈ carryTags := by decide
    have hcloses : ∀ u ∈ closeTags, u ∈ carryTags := by decide
    have hcalls : toolCallOpen ∈ carryTags := by decide
    have hopen := findFirst_of_firstMarker markers_carryTags h hopens
    have hclose := findFirst_of_firstMarker markers_carryTags h hcloses
    have hcall := index_of_firstMarker markers_carryTags h hcalls
    have hcarry := carryTags_cases ht
    by_cases hc : t = toolCallOpen
    · obtain ⟨-,hnc,hno⟩ := hcarry.resolve_right (by simp [hc])
      rw [if_neg hno] at hopen
      rw [if_neg hnc] at hclose
      rw [if_pos hc.symm] at hcall
      rw [if_pos hc,hcall]
      simp only [Option.filter_some,all_after hopen,all_after hclose,and_self,decide_true,if_true]
      simp only [← hc,htake,htag,hrest]
    · rw [if_neg (fun he => hc he.symm)] at hcall
      rw [if_neg hc]
      by_cases hin : t ∈ closeTags
      · have hno : t ∉ openTags := by
          rcases hcarry with h | h | h
          · exact h.2.2
          · exact h.2.2
          · exact absurd hin h.2.1
        rw [if_neg hno] at hopen
        rw [if_pos hin] at hclose
        have hlater : (index data toolCallOpen).filter (fun i =>
            (findFirst data openTags).all (fun o => i < o.1) ∧
              (findFirst data closeTags).all (fun c => i < c.1)) = none := by
          apply Option.filter_eq_none_iff.mpr
          intro i hi
          have := hcall i hi
          simp only [hclose,Option.all_some,decide_eq_true_eq]
          omega
        simp only [hlater]
        simp only [hclose,hin,Option.filter_some,Option.all_some,if_true,all_after hopen,
          filter_after hopen,htake,htag,hrest]
        split_ifs <;> rfl
      · have hno : t ∈ openTags := by
          rcases hcarry with h | h | h
          · exact absurd h.1 hc
          · exact absurd h.2.1 hin
          · exact h.2.2
        rw [if_pos hno] at hopen
        rw [if_neg hin] at hclose
        have hlater : (index data toolCallOpen).filter (fun i =>
            (findFirst data openTags).all (fun o => i < o.1) ∧
              (findFirst data closeTags).all (fun c => i < c.1)) = none := by
          apply Option.filter_eq_none_iff.mpr
          intro i hi
          have := hcall i hi
          simp only [hopen,Option.all_some,decide_eq_true_eq]
          omega
        simp only [hlater]
        simp only [hopen,hin,Option.filter_some,Option.all_some,if_true,if_false,
          all_after hclose,filter_after hclose,htake,hrest]
        split_ifs <;> rfl

lemma advance_settle (h : firstMarker f.tags data = none) :
    f.advance data = (f.settle data f.tags,none) := by
  unfold advance
  by_cases htool : f.inToolCall
  · rw [tags,if_pos htool] at h ⊢
    rw [if_pos htool,
      index_of_firstMarker_none markers_toolCallClose h (List.mem_singleton_self toolCallClose)]
  · rw [tags,if_neg htool] at h ⊢
    have hopens : ∀ u ∈ openTags, u ∈ carryTags := by decide
    have hcloses : ∀ u ∈ closeTags, u ∈ carryTags := by decide
    have hcalls : toolCallOpen ∈ carryTags := by decide
    have hopen := findFirst_of_firstMarker_none markers_carryTags h hopens
    have hclose := findFirst_of_firstMarker_none markers_carryTags h hcloses
    have hcall := index_of_firstMarker_none markers_carryTags h hcalls
    rw [if_neg htool]
    simp only [hopen,hclose,hcall,Option.filter_none]
    split_ifs <;> rfl

end pass

end TagFilter

/-! Emitting a run in two parts. -/

lemma lastBytes_append_of_le {n : ℕ} {x y : Bytes} (h : n ≤ y.length) :
    lastBytes n (x ++ y) = lastBytes n y := by
  have he : (x ++ y).length-n = x.length+(y.length-n) := by
    rw [List.length_append]
    omega
  rw [lastBytes,lastBytes,he,List.drop_append,List.drop_of_length_le (by omega),List.nil_append]
  congr 1
  omega

lemma lastBytes_lastBytes (n : ℕ) (a b : Bytes) :
    lastBytes n (lastBytes n a ++ b) = lastBytes n (a ++ b) := by
  by_cases hn : a.length ≤ n
  · have : lastBytes n a = a := by
      rw [lastBytes,show a.length-n = 0 by omega]
      rfl
    rw [this]
  · have hsplit : a ++ b = a.take (a.length-n) ++ (lastBytes n a ++ b) := by
      rw [← List.append_assoc,lastBytes,List.take_append_drop]
    have hlen : n ≤ (lastBytes n a ++ b).length := by
      rw [List.length_append,lastBytes,List.length_drop]
      omega
    rw [hsplit]
    exact (lastBytes_append_of_le hlen).symm

/-- The visible tail once a text has been emitted. -/
def tailAfter (tail text : Bytes) : Bytes :=
  if text.isEmpty then tail else lastBytes (longestCarryTag-1) (tail ++ text)

@[simp] lemma tailAfter_append (tail a b : Bytes) :
    tailAfter (tailAfter tail a) b = tailAfter tail (a ++ b) := by
  cases a with
  | nil => rfl
  | cons x a => cases b with
    | nil => rw [List.append_nil]; rfl
    | cons y b =>
      simp only [tailAfter,List.isEmpty_cons,List.cons_append,Bool.false_eq_true,if_false]
      rw [lastBytes_lastBytes,List.append_assoc,List.cons_append]

/-- The check for a spliced marker looks at the visible tail only. -/
lemma wouldFuse_tailAfter (tail a b rest : Bytes) :
    wouldFuse (tailAfter tail a ++ b) rest = wouldFuse (tail ++ (a ++ b)) rest := by
  cases a with
  | nil => rfl
  | cons x a =>
    simp only [tailAfter,List.isEmpty_cons,Bool.false_eq_true,if_false,wouldFuse]
    rw [lastBytes_lastBytes,List.append_assoc]

/-- The bytes of two outputs, one after the other. -/
def joined (a b : Bytes × Bytes) : Bytes × Bytes := (a.1 ++ b.1,a.2 ++ b.2)

lemma joined_assoc (a b c : Bytes × Bytes) : joined (joined a b) c = joined a (joined b c) := by
  simp [joined,List.append_assoc]

lemma joined_left_cancel {a b c : Bytes × Bytes} : joined a b = joined a c ↔ b = c := by
  constructor
  · intro h
    have h1 := congrArg Prod.fst h
    have h2 := congrArg Prod.snd h
    exact Prod.ext (List.append_cancel_left h1) (List.append_cancel_left h2)
  · rintro rfl
    rfl

namespace TagFilter

@[simp] lemma shown_append (a b : List FilteredChunk) :
    shown (a ++ b) = joined (shown a) (shown b) := by
  simp [shown,joined,List.flatMap_append]

lemma emit_eq (f : TagFilter) (c : FilteredChunk) :
    f.emit c = { f with visibleTail := tailAfter f.visibleTail c.text } := by
  unfold emit tailAfter
  dsimp only
  by_cases he : c.text.isEmpty
  · rw [if_pos he,if_pos he]
  · rw [if_neg he,if_neg he]
    split_ifs with hn
    · rw [lastBytes_append_of_le hn.2]
    · rfl

/-- A run of bytes on the side that is open. -/
def side (f : TagFilter) (s : Bytes) : Bytes × Bytes :=
  ((f.classify s).text,(f.classify s).reasoning)

@[simp] lemma side_append (f : TagFilter) (a b : Bytes) :
    f.side (a ++ b) = joined (f.side a) (f.side b) := by
  unfold side classify joined
  split_ifs <;> simp

@[simp] lemma shown_singleton (f : TagFilter) (s : Bytes) : shown [f.classify s] = f.side s := by
  simp [shown,side]

lemma put_eq (f : TagFilter) (s : Bytes) :
    (f.put s).1 = { f with visibleTail := tailAfter f.visibleTail (f.side s).1 } ∧
      shown (f.put s).2 = f.side s := by
  unfold put
  by_cases hs : s.isEmpty
  · rw [if_pos hs]
    rw [List.isEmpty_iff] at hs
    subst hs
    unfold side classify
    split_ifs <;> exact ⟨rfl,rfl⟩
  · rw [if_neg hs]
    exact ⟨emit_eq _ _,shown_singleton f s⟩

/-- The filter once a run has been emitted on the side that is open. -/
def past (f : TagFilter) (a : Bytes) : TagFilter :=
  { f with visibleTail := tailAfter f.visibleTail (f.side a).1 }

@[simp] lemma past_append (f : TagFilter) (a b : Bytes) : (f.past a).past b = f.past (a ++ b) := by
  have hside : (f.past a).side b = f.side b := rfl
  simp only [past,side_append,joined,← tailAfter_append]
  rfl

lemma emit_classify (f : TagFilter) (s : Bytes) : f.emit (f.classify s) = f.past s := emit_eq _ _

/-- A result that differs from another by a run emitted before it. -/
def Follows (x y : TagFilter × List FilteredChunk) (s : Bytes × Bytes) : Prop :=
  x.1 = y.1 ∧ shown x.2 = joined s (shown y.2)

lemma put_append (f : TagFilter) (a p : Bytes) :
    Follows (f.put (a ++ p)) ((f.past a).put p) (f.side a) := by
  refine ⟨?_,?_⟩
  · rw [(put_eq _ _).1,(put_eq _ _).1]
    exact (past_append f a p).symm
  · rw [(put_eq _ _).2,(put_eq _ _).2,side_append]
    rfl

lemma closeToolCall_append (f : TagFilter) (a p t : Bytes) :
    Follows (f.closeToolCall (a ++ p) t) ((f.past a).closeToolCall p t) (f.side a) := by
  unfold closeToolCall
  refine ⟨?_,?_⟩
  · dsimp only
    rw [emit_classify,emit_classify,past_append,List.append_assoc]
  · dsimp only
    rw [shown_singleton,shown_singleton,List.append_assoc,side_append]
    rfl

lemma openToolCall_append (f : TagFilter) (a p t : Bytes) :
    Follows (f.openToolCall (a ++ p) t) ((f.past a).openToolCall p t) (f.side a) := by
  obtain ⟨h1,h2⟩ := put_append f a p
  unfold openToolCall
  refine ⟨?_,?_⟩
  · dsimp only
    rw [h1]
  · dsimp only
    rw [shown_append,shown_append,h1,h2,joined_assoc]

lemma strayClose_append (f : TagFilter) (a p t r : Bytes) (hf : ¬ f.inThink = true) :
    Follows (f.strayClose (a ++ p) t r) ((f.past a).strayClose p t r) (f.side a) := by
  have hkey : ∀ g : TagFilter, ¬ g.inThink = true → Follows
      (if wouldFuse (g.visibleTail ++ (a ++ p)) r then (g.emit ⟨a ++ p ++ t,[]⟩,[⟨a ++ p ++ t,[]⟩])
        else g.put (a ++ p))
      (if wouldFuse ((g.past a).visibleTail ++ p) r then ((g.past a).emit ⟨p ++ t,[]⟩,[⟨p ++ t,[]⟩])
        else (g.past a).put p) (g.side a) := by
    intro g hg
    have hclass : ∀ s : Bytes, (⟨s,[]⟩ : FilteredChunk) = g.classify s := by
      intro s
      rw [classify,if_neg hg]
    have hside : (g.side a).1 = a := by
      rw [side,classify,if_neg hg]
    have hfuse : wouldFuse ((g.past a).visibleTail ++ p) r = wouldFuse (g.visibleTail ++
      (a ++ p)) r := by
      rw [← wouldFuse_tailAfter,past,hside]
    rw [hfuse]
    split_ifs
    · have hclass' : g.classify (p ++ t) = (g.past a).classify (p ++ t) := rfl
      refine ⟨?_,?_⟩
      · dsimp only
        rw [hclass,hclass,emit_classify,hclass',emit_classify,past_append,List.append_assoc]
      · dsimp only
        rw [hclass,hclass,shown_singleton,shown_singleton,List.append_assoc,side_append]
    · exact put_append g a p
  unfold strayClose
  dsimp only
  by_cases hr : f.resolved
  · rw [if_pos hr,if_pos (show (f.past a).resolved = true from hr)]
    exact hkey f hf
  · rw [if_neg hr,if_neg (show ¬ (f.past a).resolved = true from hr)]
    exact hkey { f with resolved := true, prefillSuspected := true } hf

lemma openThink_append (f : TagFilter) (a p : Bytes) :
    Follows (f.openThink (a ++ p)) ((f.past a).openThink p) (f.side a) := by
  obtain ⟨h1,h2⟩ := put_append { f with resolved := true, assumed := false } a p
  unfold openThink
  refine ⟨?_,h2⟩
  dsimp only
  rw [h1]
  rfl

lemma nestThink_append (f : TagFilter) (a p : Bytes) :
    Follows (f.nestThink (a ++ p)) ((f.past a).nestThink p) (f.side a) := by
  obtain ⟨h1,h2⟩ := put_append f a p
  refine ⟨?_,h2⟩
  unfold nestThink
  dsimp only
  rw [h1]

lemma closeThink_append (f : TagFilter) (a p : Bytes) :
    Follows (f.closeThink (a ++ p)) ((f.past a).closeThink p) (f.side a) := by
  obtain ⟨h1,h2⟩ := put_append f a p
  refine ⟨?_,h2⟩
  unfold closeThink
  dsimp only
  rw [h1]

/-- The pass at a tag does the same whether the run before it was emitted at once or in two
parts. -/
lemma hit_append (f : TagFilter) (a p t r : Bytes) :
    Follows (f.hit (a ++ p) t r) ((f.past a).hit p t r) (f.side a) := by
  unfold hit
  by_cases htool : f.inToolCall
  · rw [if_pos htool,if_pos (show (f.past a).inToolCall = true from htool)]
    exact closeToolCall_append f a p t
  rw [if_neg htool,if_neg (show ¬ (f.past a).inToolCall = true from htool)]
  by_cases hcall : t = toolCallOpen
  · rw [if_pos hcall,if_pos hcall]
    exact openToolCall_append f a p t
  rw [if_neg hcall,if_neg hcall]
  by_cases hthink : f.inThink
  · rw [if_pos hthink,if_pos (show (f.past a).inThink = true from hthink),if_pos hthink,
      if_pos (show (f.past a).inThink = true from hthink)]
    split_ifs
    · exact closeThink_append f a p
    · exact nestThink_append f a p
  · rw [if_neg hthink,if_neg (show ¬ (f.past a).inThink = true from hthink),if_neg hthink,
      if_neg (show ¬ (f.past a).inThink = true from hthink)]
    split_ifs
    · exact strayClose_append f a p t r hthink
    · exact openThink_append f a p

/-! One feed, as passes from tag to tag. -/

/-- Whether a tag here is a closing tag with nothing open. -/
def stray (f : TagFilter) (t : Bytes) : Bool := !f.inToolCall && (t ∈ closeTags && !f.inThink)

/-- The stray closing tags that the passes over some data meet: the visible text before each, and
the data after it. -/
def seams : ℕ → TagFilter → Bytes → List (Bytes × Bytes)
  | 0,_,_ => []
  | n+1,f,data => match firstMarker f.tags data with
    | none => []
    | some (p,t,r) => (if f.stray t then [(f.visibleTail ++ p,r)] else []) ++
      seams n (f.hit p t r).1 r

/-- The passes over some data: the filter they leave, what they show and the seams they meet. -/
inductive Feeds : TagFilter → Bytes → TagFilter → Bytes × Bytes → List (Bytes × Bytes) → Prop
  | settle {f : TagFilter} {data : Bytes} (h : firstMarker f.tags data = none) :
    Feeds f data (f.settle data f.tags).1 (shown (f.settle data f.tags).2) []
  | hit {f f' : TagFilter} {data p t r : Bytes} {s : Bytes × Bytes} {l : List (Bytes × Bytes)}
    (h : firstMarker f.tags data = some (p,t,r)) (hr : Feeds (f.hit p t r).1 r f' s l) :
    Feeds f data f' (joined (shown (f.hit p t r).2) s)
      ((if f.stray t then [(f.visibleTail ++ p,r)] else []) ++ l)

@[simp] lemma settle_nil (f : TagFilter) (tags : List Bytes) : f.settle [] tags = (f,[]) := by
  rw [settle,partialSuffix_eq]
  rfl

lemma loop_feeds {n : ℕ} {f : TagFilter} {data : Bytes} (h : data.length ≤ n) :
    Feeds f data (loop n f data).1 (shown (loop n f data).2) (seams n f data) := by
  induction n generalizing f data with
  | zero =>
    have hnil : data = [] := List.length_eq_zero_iff.mp (by omega)
    subst hnil
    have := @Feeds.settle f [] rfl
    rw [settle_nil] at this
    exact this
  | succ n ih =>
    unfold loop seams
    by_cases hd : data.isEmpty
    · rw [List.isEmpty_iff] at hd
      subst hd
      have := @Feeds.settle f [] rfl
      rw [settle_nil] at this
      exact this
    · rw [if_neg hd]
      cases hm : firstMarker f.tags data with
      | none =>
        rw [advance_settle hm]
        exact .settle hm
      | some m =>
        obtain ⟨p,t,r⟩ := m
        rw [advance_hit hm]
        dsimp only
        rw [shown_append]
        refine .hit hm (ih ?_)
        obtain ⟨hdata,ht⟩ := firstMarker_some hm
        obtain ⟨body,rfl,_⟩ := f.markers_tags.lead t ht
        rw [hdata] at h
        simp only [List.length_append,List.length_cons] at h
        omega

lemma Feeds.unique {f f1 f2 : TagFilter} {data : Bytes} {s1 s2 : Bytes × Bytes}
    {l1 l2 : List (Bytes × Bytes)} (h1 : Feeds f data f1 s1 l1) (h2 : Feeds f data f2 s2 l2) :
    f1 = f2 ∧ s1 = s2 ∧ l1 = l2 := by
  induction h1 generalizing f2 s2 l2 with
  | settle h => cases h2 with
    | settle => exact ⟨rfl,rfl,rfl⟩
    | hit h' => rw [h] at h'; cases h'
  | hit h _ ih => cases h2 with
    | settle h' => rw [h] at h'; cases h'
    | hit h' hr =>
      rw [h] at h'
      cases h'
      obtain ⟨rfl,rfl,rfl⟩ := ih hr
      exact ⟨rfl,rfl,rfl⟩

/-- With no tag left, what cannot begin one is emitted and the rest is carried. -/
lemma settle_eq {f : TagFilter} (hc : f.carry = []) {data safe : Bytes} {tags : List Bytes}
    (h : data = safe ++ held tags data) :
    (f.settle data tags).1 = { f.past safe with carry := held tags data } ∧
      shown (f.settle data tags).2 = f.side safe := by
  have hlen : data.length-(held tags data).length = safe.length := by
    conv_lhs => rw [h]
    rw [List.length_append,← h]
    omega
  have htake : data.take safe.length = safe := by
    rw [h]
    exact List.take_left
  have hdrop : data.drop safe.length = held tags data := by
    conv_lhs => rw [h]
    exact List.drop_left
  unfold settle
  rw [partialSuffix_eq]
  dsimp only
  by_cases hz : 0 < (held tags data).length
  · rw [if_pos hz,hlen,htake,hdrop]
    exact ⟨by rw [(put_eq f safe).1]; rfl,(put_eq f safe).2⟩
  · rw [if_neg hz]
    have hnil : held tags data = [] := List.length_eq_zero_iff.mp (by omega)
    have hdata : data = safe := by
      rw [hnil,List.append_nil] at h
      exact h
    rw [hnil,hdata]
    refine ⟨?_,(put_eq f safe).2⟩
    rw [(put_eq f safe).1,past,← hc]

lemma hit_keeps (f : TagFilter) (p t r : Bytes) :
    (f.hit p t r).1.carry = f.carry ∧ (f.hit p t r).1.started = f.started := by
  have hput : ∀ g : TagFilter, (g.put p).1 = g.past p := fun g => (put_eq g p).1
  unfold hit
  split_ifs
  · rw [closeToolCall]
    dsimp only
    rw [emit_classify]
    exact ⟨rfl,rfl⟩
  · rw [openToolCall]
    dsimp only
    rw [emit_classify,hput]
    exact ⟨rfl,rfl⟩
  · rw [closeThink]
    dsimp only
    rw [hput]
    split_ifs <;> exact ⟨rfl,rfl⟩
  · have hsuspect : ∀ g : TagFilter, (if g.resolved then g else
        { g with resolved := true, prefillSuspected := true }).carry = g.carry ∧
        (if g.resolved then g
          else { g with resolved := true, prefillSuspected := true }).started = g.started := by
      intro g
      split_ifs <;> exact ⟨rfl,rfl⟩
    rw [strayClose]
    by_cases hfuse : wouldFuse ((if f.resolved then f else
        { f with resolved := true, prefillSuspected := true }).visibleTail ++ p) r = true
    · rw [if_pos hfuse]
      dsimp only
      rw [emit_eq]
      exact hsuspect f
    · rw [if_neg hfuse,hput]
      exact hsuspect f
  · rw [nestThink]
    dsimp only
    rw [hput]
    exact ⟨rfl,rfl⟩
  · rw [openThink]
    dsimp only
    rw [hput]
    exact ⟨rfl,rfl⟩

/-- A pass at a tag looks at the data after it only at a seam. -/
lemma hit_congr (f : TagFilter) (p t : Bytes) {r r' : Bytes}
    (h : f.stray t = true → wouldFuse (f.visibleTail ++ p) r = wouldFuse (f.visibleTail ++ p) r') :
    f.hit p t r = f.hit p t r' := by
  unfold hit
  by_cases htool : f.inToolCall
  · rw [if_pos htool,if_pos htool]
  rw [if_neg htool,if_neg htool]
  by_cases hcall : t = toolCallOpen
  · rw [if_pos hcall,if_pos hcall]
  rw [if_neg hcall,if_neg hcall]
  by_cases hclose : t ∈ closeTags
  · rw [if_pos hclose,if_pos hclose]
    by_cases hthink : f.inThink
    · rw [if_pos hthink,if_pos hthink]
    · rw [if_neg hthink,if_neg hthink]
      have hf := h (by simp [stray,htool,hclose,hthink])
      have hvisible : (if f.resolved then f else
          { f with resolved := true, prefillSuspected := true }).visibleTail = f.visibleTail := by
        split_ifs <;> rfl
      rw [strayClose,strayClose]
      simp only [hvisible,hf]
  · rw [if_neg hclose,if_neg hclose]

/-- Feeding a text in two parts whose seams are settled is feeding it whole. -/
lemma Feeds.append {f f1 f2 : TagFilter} {a b : Bytes} {s1 s2 : Bytes × Bytes}
    {l1 l2 : List (Bytes × Bytes)} (h1 : Feeds f a f1 s1 l1) (hc : f.carry = [])
    (hs : ∀ x ∈ l1, wouldFuse x.1 (x.2 ++ b) = wouldFuse x.1 x.2)
    (h2 : Feeds { f1 with carry := [] } (f1.carry ++ b) f2 s2 l2) :
    ∃ l, Feeds f (a ++ b) f2 (joined s1 s2) l := by
  induction h1 with
  | @settle f data h =>
    obtain ⟨safe,hdata,hmap⟩ := firstMarker_held h b
    obtain ⟨hstate,hshown⟩ := settle_eq hc hdata
    have hpast : { (f.settle data f.tags).1 with carry := [] } = f.past safe := by
      rw [hstate,← hc]
      rfl
    have htags : (f.past safe).tags = f.tags := rfl
    rw [hpast] at h2
    rw [hstate] at h2
    rw [hshown]
    cases h2 with
    | settle h' =>
      rw [htags] at h'
      rw [h',Option.map_none] at hmap
      obtain ⟨safe',hdata',_⟩ := firstMarker_held h' []
      have hwhole : data ++ b = (safe ++ safe') ++ held f.tags (data ++ b) := by
        rw [held_append,List.append_assoc,← hdata',← List.append_assoc,← hdata]
      obtain ⟨hstate',hshown'⟩ := settle_eq (f := f.past safe) hc hdata'
      obtain ⟨hstate2,hshown2⟩ := settle_eq hc hwhole
      have h := Feeds.settle hmap
      rw [hstate2,hshown2,held_append,side_append,← past_append] at h
      rw [htags,hstate',hshown']
      exact ⟨_,h⟩
    | @hit _ _ _ p t r s l h' hr =>
      rw [htags] at h'
      rw [h',Option.map_some] at hmap
      obtain ⟨hsame,hshow⟩ := hit_append f safe p t r
      rw [← hsame] at hr
      have h := Feeds.hit hmap hr
      dsimp only at h
      rw [hshow,joined_assoc] at h
      exact ⟨_,h⟩
  | @hit f f' data p t r s l h hr ih =>
    have hfirst := firstMarker_append f.markers_tags h b
    have hsame : f.hit p t (r ++ b) = f.hit p t r := by
      apply hit_congr
      intro hstray
      exact hs (f.visibleTail ++ p,r) (by simp [hstray])
    obtain ⟨l',hrest⟩ := ih ((hit_keeps f p t r).1.trans hc)
      (fun x hx => hs x (List.mem_append_right _ hx)) h2
    rw [← hsame] at hrest
    have h := Feeds.hit hfirst hrest
    rw [hsame,← joined_assoc] at h
    exact ⟨_,h⟩

end TagFilter

/-! Where a seam is not settled. -/

/-- A marker spliced by what has arrived is spliced by the whole text too. -/
lemma wouldFuse_mono {before after : Bytes} (h : wouldFuse before after = true) (b : Bytes) :
    wouldFuse before (after ++ b) = true := by
  unfold wouldFuse at h ⊢
  dsimp only at h ⊢
  generalize lastBytes (longestCarryTag-1) before = x at h ⊢
  have hmore : ∃ z, (after ++ b).take (longestCarryTag-1) = after.take (longestCarryTag-1) ++
    z := by
    rw [List.take_append]
    exact ⟨_,rfl⟩
  obtain ⟨z,hz⟩ := hmore
  rw [hz]
  generalize after.take (longestCarryTag-1) = y at h ⊢
  by_cases he : (x.isEmpty || y.isEmpty) = true
  · rw [if_pos he] at h
    cases h
  · rw [if_neg he] at h
    have he' : ¬ (x.isEmpty || (y ++ z).isEmpty) = true := by
      intro hyz
      apply he
      simp only [Bool.or_eq_true,List.isEmpty_iff,List.append_eq_nil_iff] at hyz ⊢
      exact hyz.imp id And.left
    rw [if_neg he']
    obtain ⟨t,ht,hany⟩ := List.any_eq_true.mp h
    obtain ⟨i,hi,hmatch⟩ := List.any_eq_true.mp hany
    rw [decide_eq_true_eq] at hmatch
    obtain ⟨heq,hlt,hgt⟩ := hmatch
    rw [List.mem_range] at hi
    refine List.any_eq_true.mpr ⟨t,ht,List.any_eq_true.mpr ⟨i,?_,?_⟩⟩
    · rw [List.mem_range]
      simp only [List.length_append] at hi ⊢
      omega
    · rw [decide_eq_true_eq]
      refine ⟨?_,hlt,hgt⟩
      rw [← List.append_assoc,List.drop_append_of_le_length (by omega),
        List.take_append_of_le_length]
      · exact heq
      · rw [List.length_drop]
        omega

/-- A spliced marker goes on behind the seam, with a byte that begins no tag. -/
lemma wouldFuse_head {before after : Bytes} (h : wouldFuse before after = true) :
    ∃ x rest, after = x :: rest ∧ x ≠ lt := by
  unfold wouldFuse at h
  dsimp only at h
  generalize lastBytes (longestCarryTag-1) before = u at h
  split_ifs at h with he
  obtain ⟨t,ht,hany⟩ := List.any_eq_true.mp h
  obtain ⟨i,hi,hmatch⟩ := List.any_eq_true.mp hany
  rw [decide_eq_true_eq] at hmatch
  obtain ⟨heq,hlt,hgt⟩ := hmatch
  obtain ⟨body,hbody,hlead⟩ := markers_carryTags.lead t ht
  cases after with
  | nil => simp at he
  | cons x rest =>
    refine ⟨x,rest,rfl,?_⟩
    rintro rfl
    apply hlead
    have hget : t[u.length-i]? = (u ++ (lt :: rest).take (longestCarryTag-1))[u.length]? := by
      conv_lhs => rw [← heq]
      rw [List.getElem?_take_of_lt (by omega),List.getElem?_drop]
      congr 1
      omega
    have hten : longestCarryTag-1 = 9+1 := by decide
    rw [hten,List.take_succ_cons,List.getElem?_append_right (le_refl _),Nat.sub_self,
      List.getElem?_cons_zero,hbody,show u.length-i = (u.length-i-1)+1 by omega,
      List.getElem?_cons_succ] at hget
    exact List.mem_of_getElem? hget

namespace TagFilter

/-- Outside of blocks, a pass shows the text before its tag first. -/
lemma hit_shows {f : TagFilter} (ht : ¬ f.inToolCall = true) (hi : ¬ f.inThink = true)
    (p t r : Bytes) :
    ∃ w, (shown (f.hit p t r).2).1 = p ++ w := by
  have hput : ∀ g : TagFilter, ¬ g.inThink = true → (shown (g.put p).2).1 = p := by
    intro g hg
    rw [(put_eq g p).2,side,classify,if_neg hg]
  unfold hit
  rw [if_neg ht]
  by_cases hcall : t = toolCallOpen
  · rw [if_pos hcall,openToolCall]
    dsimp only
    rw [shown_append,joined,hput f hi]
    exact ⟨_,rfl⟩
  rw [if_neg hcall]
  by_cases hclose : t ∈ closeTags
  · rw [if_pos hclose,if_neg hi,strayClose]
    have hsame : ¬ (if f.resolved then f else
        { f with resolved := true, prefillSuspected := true }).inThink = true := by
      split_ifs
      · exact hi
      · exact hi
    by_cases hfuse : wouldFuse ((if f.resolved then f else
        { f with resolved := true, prefillSuspected := true }).visibleTail ++ p) r = true
    · rw [if_pos hfuse]
      exact ⟨t,by simp [shown]⟩
    · rw [if_neg hfuse,hput _ hsame]
      exact ⟨[],by simp⟩
  · rw [if_neg hclose,if_neg hi,openThink]
    exact ⟨[],by rw [List.append_nil]; exact hput { f with resolved := true, assumed := false } hi⟩

/-- Outside of blocks, a byte that begins no tag is shown first. -/
lemma Feeds.head {f f' : TagFilter} {x : UInt8} {data : Bytes} {s : Bytes × Bytes}
    {l : List (Bytes × Bytes)} (h : Feeds f (x :: data) f' s l) (hc : f.carry = [])
    (ht : ¬ f.inToolCall = true) (hi : ¬ f.inThink = true) (hx : x ≠ lt) : ∃ w, s.1 = x :: w := by
  have hlead := f.markers_tags.lead
  cases h with
  | settle h =>
    obtain ⟨safe,hdata,_⟩ := firstMarker_held h []
    obtain ⟨_,hshown⟩ := settle_eq hc hdata
    rw [hshown,side,classify,if_neg hi]
    cases safe with
    | cons y safe =>
      rw [(List.cons.inj hdata).1]
      exact ⟨safe,rfl⟩
    | nil =>
      exfalso
      have hwhole : held f.tags (x :: data) = x :: data := hdata.symm
      rcases @held_begun _ _ f.tags (x :: data) with hn | ⟨t,ht,_,hlen,hs⟩
      · rw [hwhole] at hn
        cases hn
      · obtain ⟨body,rfl,_⟩ := hlead t ht
        rw [hwhole] at hs hlen
        have htake := hs.eq_of_length (by rw [List.length_take,min_eq_left hlen.le])
        rw [List.length_cons,List.take_succ_cons] at htake
        exact hx (List.cons.inj htake).1.symm
  | @hit _ _ _ p t r s l h hr =>
    obtain ⟨hdata,hmem⟩ := firstMarker_some h
    obtain ⟨w,hw⟩ := hit_shows ht hi p t r
    cases p with
    | nil =>
      obtain ⟨body,rfl,_⟩ := hlead t hmem
      cases hdata
      exact absurd rfl hx
    | cons y p =>
      cases hdata
      exact ⟨p ++ w ++ s.1,by rw [joined,hw]; simp⟩

/-! Whole streams. -/

/-- The seams that one feed meets. -/
def feedSeams (f : TagFilter) (raw : Bytes) : List (Bytes × Bytes) :=
  seams (f.start.carry ++ raw).length { f.start with carry := [] } (f.start.carry ++ raw)

/-- At every stray closing tag a stream meets, the check for a spliced marker answers on what has
arrived with that delta as it does on all that follows the tag. -/
def SeamsSettled : TagFilter → List Bytes → Prop
  | _,[] => True
  | f,d :: deltas => (∀ x ∈ f.feedSeams d,
      wouldFuse x.1 (x.2 ++ deltas.flatten) = wouldFuse x.1 x.2) ∧ (f.feed d).1.SeamsSettled deltas

lemma feed_feeds (f : TagFilter) (raw : Bytes) : Feeds { f.start with carry := [] }
    (f.start.carry ++ raw) (f.feed raw).1 (shown (f.feed raw).2) (f.feedSeams raw) :=
  loop_feeds (le_refl _)

lemma start_started (f : TagFilter) : f.start.started = true := by
  unfold start
  split_ifs with h
  · exact h
  · rfl
  · rfl

lemma start_of_started {f : TagFilter} (h : f.started = true) : f.start = f := by
  rw [start,if_pos h]

lemma Feeds.started {f f' : TagFilter} {data : Bytes} {s : Bytes × Bytes} {l : List (Bytes × Bytes)}
    (h : Feeds f data f' s l) (hc : f.carry = []) : f'.started = f.started := by
  induction h with
  | settle h =>
    obtain ⟨safe,hdata,_⟩ := firstMarker_held h []
    rw [(settle_eq hc hdata).1]
    rfl
  | hit h _ ih =>
    rw [ih ((hit_keeps _ _ _ _).1.trans hc)]
    exact (hit_keeps _ _ _ _).2

lemma feed_started (f : TagFilter) (raw : Bytes) : (f.feed raw).1.started = true := by
  rw [(f.feed_feeds raw).started rfl]
  exact f.start_started

@[simp] lemma streamed_cons (f : TagFilter) (d : Bytes) (deltas : List Bytes) :
    f.streamed (d :: deltas) = joined (shown (f.feed d).2) ((f.feed d).1.streamed deltas) := by
  rw [streamed,feedAll]
  dsimp only
  rw [List.append_assoc,shown_append]
  rfl

/-- A first delta whose seams are settled leaves the same work as the whole text does. -/
lemma streamed_append {f : TagFilter} {d later : Bytes}
    (h : ∀ x ∈ f.feedSeams d, wouldFuse x.1 (x.2 ++ later) = wouldFuse x.1 x.2) :
    f.streamed [d ++ later] = joined (shown (f.feed d).2) ((f.feed d).1.streamed [later]) := by
  have hsecond := (f.feed d).1.feed_feeds later
  rw [start_of_started (f.feed_started d)] at hsecond
  obtain ⟨l,hwhole⟩ := (f.feed_feeds d).append rfl h hsecond
  rw [List.append_assoc] at hwhole
  obtain ⟨hstate,hshown,_⟩ := (f.feed_feeds (d ++ later)).unique hwhole
  rw [streamed_cons,streamed_cons,hstate,hshown,joined_assoc]

/-- Outside of blocks, a stream shows a byte that begins no tag first. -/
lemma streamed_head {f : TagFilter} (hc : f.carry = []) (hs : f.started = true)
    (ht : ¬ f.inToolCall = true) (hi : ¬ f.inThink = true) {x : UInt8} (hx : x ≠ lt) {rest : Bytes}
    {deltas : List Bytes} (h : deltas.flatten = x :: rest) :
    ∃ w, (f.streamed deltas).1 = x :: w := by
  induction deltas with
  | nil => cases h
  | cons d deltas ih =>
    rw [streamed_cons]
    have hfeed := f.feed_feeds d
    rw [start_of_started hs,hc,List.nil_append] at hfeed
    cases d with
    | nil =>
      have hsame : f.feed [] = (f,[]) := by
        have hcarry : { f with carry := [] } = f := by rw [← hc]
        rw [feed,start_of_started hs,hc]
        exact congrArg (fun g => (g,[])) hcarry
      rw [hsame]
      exact ih h
    | cons y d =>
      cases h
      obtain ⟨w,hw⟩ := hfeed.head rfl ht hi hx
      exact ⟨w ++ ((f.feed (x :: d)).1.streamed deltas).1,by rw [joined,hw]; rfl⟩

/-- A stray closing tag either stays with the text before it, or goes. -/
lemma hit_stray {f : TagFilter} {t : Bytes} (h : f.stray t = true) (p r : Bytes) :
    (wouldFuse (f.visibleTail ++ p) r = true → shown (f.hit p t r).2 = (p ++ t,[])) ∧
    (wouldFuse (f.visibleTail ++ p) r = false → shown (f.hit p t r).2 = (p,[]) ∧
      ¬ (f.hit p t r).1.inToolCall = true ∧ ¬ (f.hit p t r).1.inThink = true) := by
  simp only [stray,Bool.and_eq_true,Bool.not_eq_true',decide_eq_true_eq] at h
  obtain ⟨ht,hclose,hi⟩ := h
  have hcall : t ≠ toolCallOpen := by
    rcases carryTags_cases (show t ∈ carryTags from by
      simp only [carryTags,List.mem_append]
      exact .inl (.inr hclose)) with h | h | h
    · exact absurd hclose h.2.1
    · exact h.1
    · exact h.1
  unfold hit
  rw [if_neg (by rw [ht]; simp),if_neg hcall,if_pos hclose,if_neg (by rw [hi]; simp)]
  have hkey : ∀ g : TagFilter, g.inThink = false → g.inToolCall = false →
      (wouldFuse (g.visibleTail ++ p) r = true →
        shown (if wouldFuse (g.visibleTail ++ p) r then (g.emit ⟨p ++ t,[]⟩,[⟨p ++ t,[]⟩])
          else g.put p).2 = (p ++ t,[])) ∧
      (wouldFuse (g.visibleTail ++ p) r = false →
        shown (if wouldFuse (g.visibleTail ++ p) r then (g.emit ⟨p ++ t,[]⟩,[⟨p ++ t,[]⟩])
          else g.put p).2 = (p,[]) ∧
        ¬ (if wouldFuse (g.visibleTail ++ p) r then (g.emit ⟨p ++ t,[]⟩,[⟨p ++ t,[]⟩])
          else g.put p).1.inToolCall = true ∧
        ¬ (if wouldFuse (g.visibleTail ++ p) r then (g.emit ⟨p ++ t,[]⟩,[⟨p ++ t,[]⟩])
          else g.put p).1.inThink = true) := by
    intro g hgi hgt
    refine ⟨?_,?_⟩
    · intro hf
      rw [if_pos hf]
      simp [shown]
    · intro hf
      rw [if_neg (by rw [hf]; simp),(put_eq g p).1,(put_eq g p).2]
      refine ⟨?_,by simp [hgt],by simp [hgi]⟩
      rw [side,classify,if_neg (by rw [hgi]; simp)]
  unfold strayClose
  dsimp only
  by_cases hr : f.resolved
  · rw [if_pos hr]
    exact hkey f hi ht
  · rw [if_neg hr]
    exact hkey { f with resolved := true, prefillSuspected := true } hi ht

/-- A seam that is not settled makes the stream and the whole text differ in what they show. -/
lemma Feeds.differ {f f1 fw : TagFilter} {a b : Bytes} {s1 sw : Bytes × Bytes}
    {l1 lw : List (Bytes × Bytes)} (h1 : Feeds f a f1 s1 l1) (hc : f.carry = [])
    (hs : f.started = true) (hw : Feeds f (a ++ b) fw sw lw)
    (hx : ∃ x ∈ l1, wouldFuse x.1 (x.2 ++ b) ≠ wouldFuse x.1 x.2) {deltas : List Bytes}
    (hb : deltas.flatten = b) : ∃ p x, x ≠ lt ∧ p ++ [lt] <+: sw.1 ∧
      p ++ [x] <+: s1.1 ++ (f1.streamed deltas).1 := by
  induction h1 generalizing sw lw with
  | settle h =>
    obtain ⟨x,hx,_⟩ := hx
    cases hx
  | @hit f f' data p t r s l h hr ih =>
    have hfirst := firstMarker_append f.markers_tags h b
    obtain ⟨hkc,hks⟩ := hit_keeps f p t r
    cases hw with
    | settle h' =>
      rw [hfirst] at h'
      cases h'
    | @hit _ _ _ p' t' r' sw' lw' h' hr' =>
      rw [hfirst] at h'
      cases h'
      by_cases hseam : f.stray t = true ∧
          wouldFuse (f.visibleTail ++ p) (r ++ b) ≠ wouldFuse (f.visibleTail ++ p) r
      · obtain ⟨hstray,hne⟩ := hseam
        have hpart : wouldFuse (f.visibleTail ++ p) r = false := by
          by_contra htrue
          rw [Bool.not_eq_false] at htrue
          exact hne ((wouldFuse_mono htrue b).trans htrue.symm)
        have hfull : wouldFuse (f.visibleTail ++ p) (r ++ b) = true := by
          rw [hpart] at hne
          exact Bool.eq_true_of_not_eq_false hne
        obtain ⟨x,rest,hrest,hxlt⟩ := wouldFuse_head hfull
        have hkeep := (hit_stray hstray p (r ++ b)).1 hfull
        obtain ⟨hdrop,htool,hthink⟩ := (hit_stray hstray p r).2 hpart
        obtain ⟨body,hbody,_⟩ := f.markers_tags.lead t (firstMarker_some h).2
        refine ⟨p,x,hxlt,?_,?_⟩
        · rw [hkeep,joined,hbody]
          exact ⟨body ++ sw'.1,by simp⟩
        · rw [hdrop,joined]
          have hnext : ∃ w, s.1 ++ (f'.streamed deltas).1 = x :: w := by
            cases r with
            | cons y r =>
              cases hrest
              obtain ⟨w,hw⟩ := hr.head (hkc.trans hc) htool hthink hxlt
              exact ⟨w ++ (f'.streamed deltas).1,by rw [hw]; rfl⟩
            | nil =>
              obtain ⟨hf',hs',_⟩ := hr.unique (@Feeds.settle (f.hit p t []).1 [] rfl)
              rw [settle_nil] at hf' hs'
              rw [hf',hs']
              rw [List.nil_append] at hrest
              exact streamed_head (hkc.trans hc) (hks.trans hs) htool hthink hxlt (hb.trans hrest)
          obtain ⟨w,hw⟩ := hnext
          dsimp only
          rw [List.append_assoc,hw]
          exact ⟨w,by simp⟩
      · have hsame : f.hit p t (r ++ b) = f.hit p t r := by
          apply hit_congr
          intro hstray
          by_contra hne
          exact hseam ⟨hstray,hne⟩
        rw [hsame] at hr'
        have hlater : ∃ x ∈ l, wouldFuse x.1 (x.2 ++ b) ≠ wouldFuse x.1 x.2 := by
          obtain ⟨x,hx,hne⟩ := hx
          rcases List.mem_append.mp hx with hx | hx
          · split_ifs at hx with hstray
            · rw [List.mem_singleton.mp hx] at hne
              exact absurd ⟨hstray,hne⟩ hseam
            · cases hx
          · exact ⟨x,hx,hne⟩
        obtain ⟨q,x,hxlt,hpre,hpre'⟩ := ih (hkc.trans hc) (hks.trans hs) hr' hlater
        refine ⟨(shown (f.hit p t r).2).1 ++ q,x,hxlt,?_,?_⟩
        · rw [hsame,joined,List.append_assoc]
          exact (List.prefix_append_right_inj _).mpr hpre
        · rw [joined,List.append_assoc,List.append_assoc]
          exact (List.prefix_append_right_inj _).mpr hpre'

/-- A stream shows what the whole text shows exactly when its seams are settled. -/
lemma streamed_eq_iff (f : TagFilter) (d : Bytes) (deltas : List Bytes) :
    f.streamed (d :: deltas) = f.streamed [(d :: deltas).flatten] ↔
    f.SeamsSettled (d :: deltas) := by
  induction deltas generalizing f d with
  | nil =>
    rw [List.flatten_cons,List.flatten_nil,List.append_nil]
    simp [SeamsSettled]
  | cons d' deltas ih =>
    by_cases hsettled : ∀ x ∈ f.feedSeams d,
        wouldFuse x.1 (x.2 ++ (d' :: deltas).flatten) = wouldFuse x.1 x.2
    · rw [streamed_cons,List.flatten_cons,streamed_append hsettled,joined_left_cancel,ih]
      exact ⟨fun h => ⟨hsettled,h⟩,fun h => h.2⟩
    · constructor
      · intro h
        exfalso
        push Not at hsettled
        have hwhole := f.feed_feeds ((d :: d' :: deltas).flatten)
        rw [List.flatten_cons,← List.append_assoc] at hwhole
        obtain ⟨p,x,hxlt,hpre,hpre'⟩ :=
          (f.feed_feeds d).differ rfl f.start_started hwhole hsettled rfl
        have hvisible := congrArg Prod.fst h
        rw [List.flatten_cons,streamed_cons f d,
          streamed_cons f (d ++ (d' :: deltas).flatten)] at hvisible
        have hlong : p ++ [lt] <+: (joined (shown (f.feed (d ++ (d' :: deltas).flatten)).2)
            ((f.feed (d ++ (d' :: deltas).flatten)).1.streamed [])).1 :=
            hpre.trans (List.prefix_append _ _)
        rw [← hvisible] at hlong
        have heq : p ++ [lt] = p ++ [x] := by
          apply List.IsPrefix.eq_of_length
          · exact List.prefix_of_prefix_length_le hlong hpre' (by simp)
          · simp
        exact hxlt (List.cons.inj (List.append_cancel_left heq)).1.symm
      · intro h
        exact absurd h.1 hsettled

end TagFilter

/-- Feeding a text in deltas shows what splitting it whole shows, for every text, every division
into deltas and either prefill, exactly when every seam is settled. -/
theorem streamed_eq_splitReasoning_iff (assumePrefill : Bool) (deltas : List Bytes) :
    (TagFilter.new assumePrefill).streamed deltas =
        ((splitReasoning deltas.flatten assumePrefill).1,
          (splitReasoning deltas.flatten assumePrefill).2.1) ↔
      (TagFilter.new assumePrefill).SeamsSettled deltas := by
  have hwhole : ∀ text, (TagFilter.new assumePrefill).streamed [text] =
      ((splitReasoning text assumePrefill).1,(splitReasoning text assumePrefill).2.1) := by
    intro text
    unfold splitReasoning
    by_cases he : text.isEmpty
    · rw [if_pos he,List.isEmpty_iff.mp he]
      cases assumePrefill <;> rfl
    · rw [if_neg he,TagFilter.streamed_cons]
      dsimp only
      rw [TagFilter.shown_append]
      rfl
  cases deltas with
  | nil =>
    rw [List.flatten_nil,← hwhole]
    exact ⟨fun _ => trivial,fun _ => by cases assumePrefill <;> rfl⟩
  | cons d deltas =>
    rw [← hwhole]
    exact TagFilter.streamed_eq_iff _ d deltas

/-- A stray closing tag that arrives before the bytes behind it is dropped, and a marker is spliced;
in the whole text the tag stays. -/
theorem stream_splices_marker :
    let deltas := [ascii "<t</think>",ascii "hink>"]
    (TagFilter.new false).streamed deltas ≠
      ((splitReasoning deltas.flatten false).1,(splitReasoning deltas.flatten false).2.1) ∧
    (TagFilter.new false).streamed deltas = (ascii "<think>",[]) ∧
    splitReasoning deltas.flatten false = (ascii "<t</think>hink>",[],true) := by
  refine ⟨?_,?_,?_⟩ <;> decide

end Manvi.OpenAICompat
