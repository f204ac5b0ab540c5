import Manvi.OpenAICompat.Fallback
import Manvi.OpenAICompat.TagStream

/-! Removing framing from a finished text splices no marker into being. -/
namespace Manvi.OpenAICompat
open Manvi.Encoding

/-- The markers that a consumer of the visible text acts on. -/
def openers : List Bytes := openTags ++ [toolCallOpen]

/-- Every marker of a shown text stands in the source text, between what is shown around it. -/
def Sourced (text out : Bytes) : Prop := ∀ m ∈ openers, ∀ a b, out = a ++ m ++ b →
  ∃ a' b', text = a' ++ m ++ b' ∧ a.Sublist a' ∧ b.Sublist b'

section sourced
variable {text : Bytes}

lemma openers_carryTags {m : Bytes} (h : m ∈ openers) : m ∈ carryTags := by
  revert m
  decide

lemma openers_short {m : Bytes} (h : m ∈ openers) : 0 < m.length ∧ m.length ≤ longestCarryTag := by
  revert m
  decide

lemma Sourced.refl (text : Bytes) : Sourced text text := by
  intro m _ a b h
  exact ⟨a,b,h,List.Sublist.refl a,List.Sublist.refl b⟩

lemma Sourced.nil (text : Bytes) : Sourced text [] := by
  intro m hm a b h
  have hlen := congrArg List.length h
  have hpos := (openers_short hm).1
  simp only [List.length_nil,List.length_append] at hlen
  omega

/-- Text may be left out in front. -/
lemma Sourced.behind {x y : Bytes} (h : Sourced text (x ++ y)) : Sourced text y := by
  intro m hm a b hy
  obtain ⟨a',b',htext,ha,hb⟩ := h m hm (x ++ a) b (by rw [hy]; simp)
  exact ⟨a',b',htext,(List.sublist_append_right x a).trans ha,hb⟩

/-- A marker that spans a seam is seen by the check. -/
lemma wouldFuse_of_span {m a w z b : Bytes} (hm : m ∈ openers) (hsplit : m = w ++ z) (hw : w ≠ [])
    (hz : z ≠ []) : wouldFuse (a ++ w) (z ++ b) = true := by
  have hshort := (openers_short hm).2
  have hwpos := List.length_pos_iff.mpr hw
  have hzpos := List.length_pos_iff.mpr hz
  have hlen : m.length = w.length+z.length := by rw [hsplit,List.length_append]
  obtain ⟨x,hx⟩ : ∃ x, lastBytes (longestCarryTag-1) (a ++ w) = x ++ w := by
    refine ⟨lastBytes (longestCarryTag-1-w.length) a,?_⟩
    rw [lastBytes,lastBytes,List.length_append,List.drop_append_of_le_length (by omega)]
    congr 2
    omega
  obtain ⟨y,hy⟩ : ∃ y, (z ++ b).take (longestCarryTag-1) = z ++ y := by
    rw [List.take_append,List.take_of_length_le (by omega)]
    exact ⟨_,rfl⟩
  unfold wouldFuse
  dsimp only
  rw [hx,hy]
  have hne : ¬ ((x ++ w).isEmpty || (z ++ y).isEmpty) = true := by
    simp [hw,hz]
  rw [if_neg hne]
  refine List.any_eq_true.mpr ⟨m,openers_carryTags hm,List.any_eq_true.mpr ⟨x.length,?_,?_⟩⟩
  · rw [List.mem_range]
    simp only [List.length_append]
    omega
  · rw [decide_eq_true_eq]
    refine ⟨?_,?_,?_⟩
    · have hjoin : x ++ w ++ (z ++ y) = x ++ (m ++ y) := by rw [hsplit]; simp
      rw [hjoin,List.drop_left,List.take_left]
    · rw [List.length_append]
      omega
    · rw [List.length_append]
      omega

/-- Framing between two runs may be left out where the check sees no spliced marker. -/
lemma Sourced.cut {x t r : Bytes} (h : Sourced text (x ++ t ++ r)) (hfuse : wouldFuse x r = false) :
    Sourced text (x ++ r) := by
  intro m hm a b hout
  have hbefore : ∀ z, x = a ++ m ++ z → b = z ++ r →
      ∃ a' b', text = a' ++ m ++ b' ∧ a.Sublist a' ∧ b.Sublist b' := by
    intro z hx hb
    obtain ⟨a',b',htext,ha,hb'⟩ := h m hm a (z ++ t ++ r) (by rw [hx]; simp)
    refine ⟨a',b',htext,ha,?_⟩
    rw [hb]
    apply List.Sublist.trans _ hb'
    rw [List.append_assoc]
    exact (List.sublist_append_right t r).append_left z
  have hafter : ∀ z, a = x ++ z → r = z ++ m ++ b →
      ∃ a' b', text = a' ++ m ++ b' ∧ a.Sublist a' ∧ b.Sublist b' := by
    intro z ha hr
    obtain ⟨a',b',htext,ha',hb⟩ := h m hm (x ++ t ++ z) b (by rw [hr]; simp)
    refine ⟨a',b',htext,?_,hb⟩
    rw [ha]
    apply List.Sublist.trans _ ha'
    rw [List.append_assoc]
    exact (List.sublist_append_right t z).append_left x
  cases List.append_eq_append_iff.mp hout with
  | inr hin =>
    obtain ⟨z,hx,hb⟩ := hin
    exact hbefore z hx hb
  | inl hin =>
    obtain ⟨z,ham,hr⟩ := hin
    cases List.append_eq_append_iff.mp ham with
    | inl hm' =>
      obtain ⟨w,hx,hmz⟩ := hm'
      by_cases hw : w = []
      · rw [hw,List.append_nil] at hx
        rw [hw,List.nil_append] at hmz
        exact hafter [] (by rw [hx,List.append_nil]) (by rw [hr,hmz,List.nil_append])
      · by_cases hz : z = []
        · rw [hz,List.append_nil] at hmz
          exact hbefore [] (by rw [hx,hmz,List.append_nil]) (by rw [hr,hz]; rfl)
        · rw [hx,hr,wouldFuse_of_span hm hmz hw hz] at hfuse
          cases hfuse
    | inr ha =>
      obtain ⟨w,ha,hz⟩ := ha
      exact hafter w ha (by rw [hr,hz])

end sourced

namespace TagFilter

/-- The visible tail is the end of what has been shown. -/
lemma tailAfter_lastBytes (v s : Bytes) :
    tailAfter (lastBytes (longestCarryTag-1) v) s = lastBytes (longestCarryTag-1) (v ++ s) := by
  unfold tailAfter
  by_cases hs : s.isEmpty
  · rw [if_pos hs,List.isEmpty_iff.mp hs,List.append_nil]
  · rw [if_neg hs,lastBytes_lastBytes]

lemma wouldFuse_lastBytes (v p r : Bytes) :
    wouldFuse (lastBytes (longestCarryTag-1) v ++ p) r = wouldFuse (v ++ p) r := by
  unfold wouldFuse
  rw [lastBytes_lastBytes]

lemma openToolCall_eq (f : TagFilter) (p t : Bytes) :
    (f.openToolCall p t).1 = { f.past (p ++ t) with inToolCall := true } ∧
      shown (f.openToolCall p t).2 = f.side (p ++ t) := by
  have hpast : (f.put p).1 = f.past p := (put_eq f p).1
  unfold openToolCall
  dsimp only
  rw [hpast,emit_classify,past_append,shown_append,(put_eq f p).2,shown_singleton,side_append]
  exact ⟨rfl,rfl⟩

lemma closeToolCall_eq (f : TagFilter) (p t : Bytes) :
    (f.closeToolCall p t).1 = { f.past (p ++ t) with inToolCall := false } ∧
      shown (f.closeToolCall p t).2 = f.side (p ++ t) := by
  unfold closeToolCall
  dsimp only
  rw [emit_classify,shown_singleton]
  exact ⟨rfl,rfl⟩

/-- Inside a block of thought a pass shows nothing. -/
lemma hit_thinking {f : TagFilter} {p t r : Bytes} (hf : f.inThink = true) :
    (shown (f.hit p t r).2).1 = [] ∧ (f.hit p t r).1.visibleTail = f.visibleTail := by
  have hside : ∀ s, (f.side s).1 = [] := by
    intro s
    rw [side,classify,if_pos hf]
  have hpast : ∀ s, (f.past s).visibleTail = f.visibleTail := by
    intro s
    rw [past,hside]
    rfl
  have hput : (f.put p).1 = f.past p := (put_eq f p).1
  have hshown : (shown (f.put p).2).1 = [] := by rw [(put_eq f p).2,hside]
  unfold hit
  split_ifs with htool hcall hclose
  · obtain ⟨hstate,hout⟩ := closeToolCall_eq f p t
    rw [hstate,hout,hside]
    exact ⟨rfl,hpast (p ++ t)⟩
  · obtain ⟨hstate,hout⟩ := openToolCall_eq f p t
    rw [hstate,hout,hside]
    exact ⟨rfl,hpast (p ++ t)⟩
  · refine ⟨hshown,?_⟩
    rw [closeThink,hput]
    dsimp only
    split_ifs
    · exact hpast p
    · exact hpast p
  · refine ⟨hshown,?_⟩
    rw [nestThink,hput]
    exact hpast p

/-- Outside of a block of thought, at a tag that opens none, a pass shows the run before the tag,
and the tag as well unless it can go without splicing a marker. -/
lemma hit_outside {f : TagFilter} {p t r : Bytes} (ht : t ∈ f.tags) (hopen : t ∉ openTags)
    (hf : f.inThink = false) : (f.hit p t r).1.inThink = false ∧ ∃ kept,
      (shown (f.hit p t r).2).1 = p ++ kept ∧
      (f.hit p t r).1.visibleTail = tailAfter f.visibleTail (p ++ kept) ∧
      (kept = t ∨ kept = [] ∧ wouldFuse (f.visibleTail ++ p) r = false) := by
  have hno : ¬ f.inThink = true := by rw [hf]; simp
  have hside : ∀ s, (f.side s).1 = s := by
    intro s
    rw [side,classify,if_neg hno]
  have hpast : ∀ s, (f.past s).visibleTail = tailAfter f.visibleTail s := by
    intro s
    rw [past,hside]
  unfold hit
  split_ifs with htool hcall hclose
  · obtain ⟨hstate,hout⟩ := closeToolCall_eq f p t
    rw [hstate,hout,hside]
    exact ⟨hf,t,rfl,hpast (p ++ t),.inl rfl⟩
  · obtain ⟨hstate,hout⟩ := openToolCall_eq f p t
    rw [hstate,hout,hside]
    exact ⟨hf,t,rfl,hpast (p ++ t),.inl rfl⟩
  · unfold strayClose
    have hsame : (if f.resolved then f else
        { f with resolved := true, prefillSuspected := true }).inThink = false ∧
        (if f.resolved then f else
          { f with resolved := true, prefillSuspected := true }).visibleTail = f.visibleTail := by
      split_ifs
      · exact ⟨hf,rfl⟩
      · exact ⟨hf,rfl⟩
    revert hsame
    generalize (if f.resolved then f else { f with resolved := true, prefillSuspected := true }) = g
    rintro ⟨hg,htail⟩
    dsimp only
    split_ifs with hfuse
    · rw [emit_eq]
      exact ⟨hg,t,by simp [shown],by rw [← htail],.inl rfl⟩
    · obtain ⟨hstate,hout⟩ := put_eq g p
      have hshown : (g.side p).1 = p := by
        rw [side,classify,if_neg (by rw [hg]; simp)]
      rw [hstate,hout,hshown,htail]
      rw [htail,Bool.not_eq_true] at hfuse
      exact ⟨hg,[],by rw [List.append_nil],by rw [List.append_nil],.inr ⟨rfl,hfuse⟩⟩
  · exfalso
    rw [tags,if_neg htool] at ht
    cases carryTags_cases ht with
    | inl h => exact hcall h.1
    | inr h => cases h with
      | inl h => exact hclose h.2.1
      | inr h => exact hopen h.2.2

/-- The passes over some data keep every marker sourced. -/
lemma Feeds.sourced {f f' : TagFilter} {data text v : Bytes} {s : Bytes × Bytes}
    {l : List (Bytes × Bytes)}
    (h : Feeds f data f' s l) (hc : f.carry = []) (hopen : ∀ t ∈ openTags, ¬ t <:+: data)
    (htail : f.visibleTail = lastBytes (longestCarryTag-1) v) (hthink : f.inThink = true → v = [])
    (hsrc : Sourced text (v ++ data)) : Sourced text (v ++ s.1 ++ f'.flush.text) := by
  induction h generalizing v with
  | @settle f data h =>
    obtain ⟨safe,hdata,_⟩ := firstMarker_held h []
    obtain ⟨hstate,hshown⟩ := settle_eq hc hdata
    rw [hstate,hshown]
    by_cases hf : f.inThink = true
    · have hempty : ({ f.past safe with carry := held f.tags data } : TagFilter).flush.text =
        [] := by
        unfold flush classify
        rw [if_pos (show (f.past safe).inThink = true from hf)]
        split_ifs <;> rfl
      rw [hempty,hthink hf,side,classify,if_pos hf]
      exact .nil text
    · have hcarry : ({ f.past safe with carry := held f.tags data } : TagFilter).flush.text =
          held f.tags data := by
        unfold flush classify
        rw [if_neg (show ¬ (f.past safe).inThink = true from hf)]
        split_ifs with hnil
        · exact (List.isEmpty_iff.mp hnil).symm
        · rfl
      rw [hcarry,side,classify,if_neg hf]
      dsimp only
      rw [List.append_assoc,← hdata]
      exact hsrc
  | @hit f f' data p t r s l h hr ih =>
    obtain ⟨hdata,ht⟩ := firstMarker_some h
    have hnot : t ∉ openTags := by
      intro hmem
      exact hopen t hmem ⟨p,r,hdata.symm⟩
    have hrest : ∀ t ∈ openTags, ¬ t <:+: r := by
      intro u hu hin
      apply hopen u hu
      rw [hdata]
      exact hin.trans (List.suffix_append (p ++ t) r).isInfix
    have hkc := (hit_keeps f p t r).1.trans hc
    rw [joined]
    dsimp only
    cases hf : f.inThink with
    | true =>
      obtain ⟨hshown,hsame⟩ := hit_thinking (p := p) (t := t) (r := r) hf
      have hv := hthink hf
      rw [hshown,List.nil_append]
      refine ih hkc hrest (hsame.trans htail) (fun _ => hv) ?_
      rw [hv,hdata,List.nil_append] at hsrc
      rw [hv,List.nil_append]
      exact hsrc.behind
    | false =>
      obtain ⟨hf',kept,hshown,hnewTail,hkept⟩ := hit_outside (p := p) (r := r) ht hnot hf
      rw [hshown,← List.append_assoc v]
      refine ih hkc hrest ?_ ?_ ?_
      · rw [hnewTail,htail,tailAfter_lastBytes]
      · intro hin
        rw [hf'] at hin
        cases hin
      · rw [hdata] at hsrc
        cases hkept with
        | inl hkept =>
          rw [hkept]
          simp only [List.append_assoc] at hsrc ⊢
          exact hsrc
        | inr hgone =>
          obtain ⟨hgone,hfuse⟩ := hgone
          rw [htail,wouldFuse_lastBytes] at hfuse
          rw [hgone,List.append_nil]
          simp only [← List.append_assoc] at hsrc
          exact hsrc.cut hfuse

end TagFilter

/-- The visible text of a finished response without opening tags has its markers from the
response. -/
lemma splitReasoning_sourced {text : Bytes} (assumePrefill : Bool)
    (hopen : ∀ t ∈ openTags, ¬ t <:+: text) :
    Sourced text (splitReasoning text assumePrefill).1 := by
  unfold splitReasoning
  by_cases he : text.isEmpty
  · rw [if_pos he]
    exact .nil text
  · rw [if_neg he]
    dsimp only
    have hfeeds := (TagFilter.new assumePrefill).feed_feeds text
    have hstart : (TagFilter.new assumePrefill).start.carry = [] ∧
        (TagFilter.new assumePrefill).start.visibleTail = [] := by
      cases assumePrefill <;> exact ⟨rfl,rfl⟩
    rw [hstart.1,List.nil_append] at hfeeds
    have hsrc := hfeeds.sourced (v := []) rfl hopen hstart.2 (fun _ => rfl) (.refl text)
    rw [TagFilter.shown_append]
    have hflush : ∀ c : FilteredChunk, (TagFilter.shown [c]).1 = c.text := by
      intro c
      simp [TagFilter.shown]
    rw [joined,hflush]
    exact hsrc

/-- Where the text holds no opening tag of a block of thought, the visible text holds a marker only
where the text does, and every call recovered from it has its opening marker in the text. -/
theorem splitReasoning_fabricates_nothing (text : Bytes) (assumePrefill : Bool)
    (hopen : ∀ t ∈ openTags, ¬ t <:+: text) {ParsedCall : Type}
    (parseCallPayload : Bytes → Option (List ParsedCall)) :
    (∀ m ∈ openTags ++ [toolCallOpen], m <:+: (splitReasoning text assumePrefill).1 → m <:+: text) ∧
    ∀ c ∈ (extractTaggedCalls parseCallPayload (splitReasoning text assumePrefill).1).2,
      ∃ a body b parsed a' b', (splitReasoning text assumePrefill).1 = a ++ toolCallOpen ++
      (body ++ toolCallClose ++ b) ∧
        parseCallPayload (trimSpace body) = some parsed ∧ c ∈ parsed ∧
        text = a' ++ toolCallOpen ++ b' ∧ a.Sublist a' ∧
        (body ++ toolCallClose ++ b).Sublist b' := by
  have hsrc := splitReasoning_sourced assumePrefill hopen
  refine ⟨?_,?_⟩
  · intro m hm hin
    obtain ⟨a,b,hab⟩ := hin
    obtain ⟨a',b',htext,_,_⟩ := hsrc m hm a b hab.symm
    exact ⟨a',b',htext.symm⟩
  · intro c hc
    obtain ⟨a,body,b,parsed,hvisible,hparse,hmem⟩ := mem_extractTaggedCalls hc
    have hcall : toolCallOpen ∈ openers := List.mem_append_right _ (List.mem_singleton_self _)
    obtain ⟨a',b',htext,ha,hb⟩ := hsrc toolCallOpen hcall a _ hvisible
    exact ⟨a,body,b,parsed,a',b',hvisible,hparse,hmem,htext,ha,hb⟩

/-- Two stray closing tags, the second of which would splice a marker and stays. -/
def spliced : Bytes := ascii "<to</think>ol</thought>_call>{}</tool_call>"

theorem splitReasoning_fabricates_nothing_spliced :
    (∀ t ∈ openTags, ¬ t <:+: spliced) ∧
    (splitReasoning spliced false).1 = ascii "<tool</thought>_call>{}</tool_call>" ∧
    ∀ m ∈ openTags ++ [toolCallOpen], m <:+: (splitReasoning spliced false).1 → m <:+: spliced :=
  ⟨by decide,by decide,
    (splitReasoning_fabricates_nothing spliced false (by decide)
      (fun _ => (none : Option (List Bytes)))).1⟩

end Manvi.OpenAICompat
