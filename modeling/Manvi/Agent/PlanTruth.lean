import Manvi.Agent.Reclaimed

/-! A compaction plan against the request it leaves: what is counted once its steps are applied. -/
namespace Manvi.Agent
open Manvi.LLM Manvi.Session

/-- The text that some steps give to a result. -/
def stepText (steps : List CompactionStep) (key : ResultKey) : Option String :=
  (steps.find? (fun s => s.key = key)).map CompactionStep.text

/-- The tool results of some blocks, in order. -/
def resultsOf (blocks : List ContentBlock) : List (CallID × List ContentBlock) :=
  blocks.filterMap (fun b => match b with
    | .toolResult id content _ => some (id,content)
    | _ => none)

/-- The calls whose results were seen, once those of some blocks are. -/
def seenAfter (seen : List CallID) (blocks : List ContentBlock) : List CallID :=
  ((resultsOf blocks).map Prod.fst).reverse ++ seen

/-- Apply some steps to the results among some blocks. -/
def applyBlocks (steps : List CompactionStep) : List CallID → List ContentBlock → List ContentBlock
  | _,[] => []
  | seen,.toolResult id content isError :: rest =>
    .toolResult id (match stepText steps ⟨id,seen.count id+1⟩ with
      | some text => [.text text]
      | none => content) isError :: applyBlocks steps (id :: seen) rest
  | seen,b :: rest => b :: applyBlocks steps seen rest

def applyMessages (steps : List CompactionStep) : List CallID → List Message → List Message
  | _,[] => []
  | seen,m :: rest =>
    { m with content := applyBlocks steps seen m.content } :: applyMessages steps
    (seenAfter seen m.content) rest

/-- A history with the steps of a plan applied: each result it names holds the text of its step
alone. -/
def CompactionPlan.appliedTo (plan : CompactionPlan) (messages : List Message) : List Message :=
  applyMessages plan.steps [] messages

section counting
variable (imageSize : List UInt8 → Option (ℕ × ℕ)) (steps : List CompactionStep)

/-- What the content of a result is counted as in a request, block by block. -/
def contentTokens (content : List ContentBlock) : ℕ := (content.map (countInner imageSize)).sum

/-- What a result's count falls by when its step is applied. -/
def stepDrop (k : ResultKey × CallID × List ContentBlock) : ℤ := match stepText steps k.1 with
  | some text => contentTokens imageSize k.2.2-estimateTokens text
  | none => 0

variable {imageSize steps}

@[simp] lemma numbered_append {α : Type} (f : α → CallID) (seen : List CallID) (as bs : List α) :
    numbered f seen (as ++ bs) = numbered f seen as ++
    numbered f ((as.map f).reverse ++ seen) bs := by
  induction as generalizing seen with
  | nil => rfl
  | cons a as ih => simp [numbered,ih]

lemma count_applyBlocks (seen : List CallID) (blocks : List ContentBlock) :
    (((applyBlocks steps seen blocks).map (countBlock imageSize)).sum : ℤ) =
      (blocks.map (countBlock imageSize)).sum-((numbered Prod.fst seen (resultsOf blocks)).map
        (stepDrop imageSize steps)).sum := by
  induction blocks generalizing seen with
  | nil => simp [applyBlocks,resultsOf,numbered]
  | cons b rest ih =>
    have hother : applyBlocks steps seen (b :: rest) = b :: applyBlocks steps seen rest →
        resultsOf (b :: rest) = resultsOf rest →
        (((applyBlocks steps seen (b :: rest)).map (countBlock imageSize)).sum : ℤ) =
          ((b :: rest).map (countBlock imageSize)).sum-
            ((numbered Prod.fst seen (resultsOf (b :: rest))).map
              (stepDrop imageSize steps)).sum := by
      intro hkeeps hresults
      have hrest := ih seen
      rw [hkeeps,hresults,List.map_cons,List.map_cons,List.sum_cons,List.sum_cons]
      push_cast at hrest ⊢
      omega
    cases b with
    | toolResult id content isError =>
      have hrest := ih (id :: seen)
      simp only [applyBlocks,resultsOf,List.filterMap_cons,numbered,List.map_cons,List.sum_cons,
        countBlock,
        stepDrop] at hrest ⊢
      cases hstep : stepText steps ⟨id,seen.count id+1⟩ with
      | none =>
        dsimp only
        push_cast at hrest ⊢
        omega
      | some text =>
        simp only [contentTokens,List.map_cons,List.map_nil,List.sum_cons,List.sum_nil,countInner]
        push_cast at hrest ⊢
        omega
    | text t => exact hother rfl rfl
    | reasoning t sig red => exact hother rfl rfl
    | image mt data => exact hother rfl rfl
    | toolCall id name args => exact hother rfl rfl

lemma count_applyMessages (seen : List CallID) (messages : List Message) :
    (((applyMessages steps seen messages).map (countMessageBlocks imageSize)).sum : ℤ) =
      (messages.map (countMessageBlocks imageSize)).sum-
        ((numbered Prod.fst seen (Planning.toolResults messages)).map
          (stepDrop imageSize steps)).sum := by
  induction messages generalizing seen with
  | nil => simp [applyMessages,Planning.toolResults,numbered]
  | cons m rest ih =>
    have hblocks := @count_applyBlocks imageSize steps seen m.content
    have hrest := ih (seenAfter seen m.content)
    have hresults : Planning.toolResults (m :: rest) = resultsOf m.content ++
      Planning.toolResults rest := rfl
    rw [hresults,numbered_append,List.map_append,List.sum_append]
    simp only [applyMessages,List.map_cons,List.sum_cons,countMessageBlocks]
    unfold seenAfter at hrest ⊢
    push_cast at hblocks hrest ⊢
    omega

end counting
lemma stepText_none {steps : List CompactionStep} {key : ResultKey}
    (h : key ∉ steps.map CompactionStep.key) :
    stepText steps key = none := by
  have hfind : steps.find? (fun s => decide (s.key = key)) = none := by
    apply List.find?_eq_none.mpr
    intro s hs heq
    exact h (List.mem_map.mpr ⟨s,hs,of_decide_eq_true heq⟩)
  unfold stepText
  rw [hfind]
  rfl

lemma stepText_cons_self {s : CompactionStep} {steps : List CompactionStep} {key : ResultKey}
    (h : s.key = key) :
    stepText (s :: steps) key = some s.text := by
  simp [stepText,h]

lemma stepText_cons_ne {s : CompactionStep} {steps : List CompactionStep} {key : ResultKey}
    (h : s.key ≠ key) :
    stepText (s :: steps) key = stepText steps key := by
  unfold stepText
  rw [List.find?_cons_of_neg (by simpa using h)]

/-- How far the texts of a result count from what they do joined. -/
def seams (content : List ContentBlock) : ℤ :=
  ((content.filterMap (fun b => match b with | .text t => some t | _ => none)).map
    (fun t => (estimateTokens t : ℤ))).sum-
    estimateTokens (joinedText content)

/-- Block by block a result counts for its price and its seams. -/
lemma contentTokens_price (imageSize : List UInt8 → Option (ℕ × ℕ)) (content : List ContentBlock) :
    (contentTokens imageSize content : ℤ) = price imageSize content+seams content := by
  have hblocks : (contentTokens imageSize content : ℤ) =
      ((content.filterMap (fun b => match b with | .text t => some t | _ => none)).map
        (fun t => (estimateTokens t : ℤ))).sum+
        ((pictures content).map (imageTokens imageSize)).sum := by
    unfold contentTokens pictures
    induction content with
    | nil => rfl
    | cons b rest ih =>
      rw [List.map_cons,List.sum_cons,List.filterMap_cons,List.filterMap_cons,Nat.cast_add,ih]
      cases b with
      | text t =>
        simp only [countInner,List.map_cons,List.sum_cons]
        omega
      | image mt data =>
        simp only [countInner,List.map_cons,List.sum_cons]
        push_cast
        omega
      | reasoning t sig red => simp [countInner]
      | toolCall id name args => simp [countInner]
      | toolResult id inner isError => simp [countInner]
  unfold price seams
  omega

namespace Planning
variable {p : Planning}

lemma stepFor_keys (floor : ℤ) (ks : List (ResultKey × CallID × List ContentBlock)) :
    (ks.map (stepFor floor)).map CompactionStep.key = ks.map Prod.fst := by
  rw [List.map_map]
  rfl

/-- What steps take off the count of the results they are made for: what they lower the prices by,
and the seams. -/
lemma sum_stepDrop {floor : ℤ} {ks ts : List (ResultKey × CallID × List ContentBlock)}
    (hnodup : (ks.map Prod.fst).Nodup) (hsub : ts.Sublist ks) :
    (ks.map (stepDrop p.imageSize (ts.map (stepFor floor)))).sum =
      fall p.imageSize floor (ts.map (fun k => k.2.2))+(ts.map (fun k => seams k.2.2)).sum := by
  induction hsub with
  | slnil => rfl
  | @cons ts ks k hsub ih =>
    rw [List.map_cons,List.nodup_cons] at hnodup
    have hnone : stepText (ts.map (stepFor floor)) k.1 = none := by
      refine stepText_none ?_
      rw [stepFor_keys]
      exact fun hmem => hnodup.1 ((hsub.map Prod.fst).subset hmem)
    rw [List.map_cons,List.sum_cons,ih hnodup.2]
    simp only [stepDrop,hnone,zero_add]
  | @cons_cons ts ks k hsub ih =>
    rw [List.map_cons,List.nodup_cons] at hnodup
    have hself : stepText ((k :: ts).map (stepFor floor)) k.1 = some (replacement floor k.2.2) :=
      stepText_cons_self (s := stepFor floor k) rfl
    have hrest : ks.map (stepDrop p.imageSize ((k :: ts).map (stepFor floor))) =
        ks.map (stepDrop p.imageSize (ts.map (stepFor floor))) := by
      apply List.map_congr_left
      intro k' hk'
      have hne : (stepFor floor k).key ≠ k'.1 := by
        intro heq
        exact hnodup.1 (List.mem_map.mpr ⟨k',hk',heq.symm⟩)
      unfold stepDrop
      rw [List.map_cons,stepText_cons_ne hne]
    have hdrop : stepDrop p.imageSize ((k :: ts).map (stepFor floor)) k =
      lowering p.imageSize floor k.2.2+seams k.2.2 := by
      simp only [stepDrop,hself,contentTokens_price,lowering]
      omega
    rw [List.map_cons (l := ks),List.sum_cons,hrest,ih hnodup.2,hdrop]
    simp only [fall,List.map_cons,List.sum_cons]
    omega

/-- Steps made for results before the protected tail drop nothing else. -/
lemma sum_stepDrop_exposed {messages : List Message} {steps : List CompactionStep}
    (hkeys : ∀ s ∈ steps, s.key ∈ (exposedResults messages).map Prod.fst) :
    ((numbered Prod.fst [] (toolResults messages)).map (stepDrop p.imageSize steps)).sum =
      ((exposedResults messages).map (stepDrop p.imageSize steps)).sum := by
  have hsplit : toolResults messages = toolResults
    (messages.take (messages.length-protectedTail)) ++
      toolResults (messages.drop (messages.length-protectedTail)) := by
    unfold toolResults
    rw [← List.flatMap_append,List.take_append_drop]
  have hnodup : ((numbered Prod.fst [] (toolResults messages)).map Prod.fst).Nodup :=
    numbered_nodup [] _
  rw [hsplit,numbered_append] at hnodup ⊢
  rw [List.map_append] at hnodup
  rw [List.map_append,List.sum_append]
  have hzero : ∀ k ∈ numbered Prod.fst
    (((toolResults (messages.take (messages.length-protectedTail))).map Prod.fst).reverse ++ [])
      (toolResults (messages.drop (messages.length-protectedTail))),
      stepDrop p.imageSize steps k = 0 := by
    intro k hk
    have hnone : stepText steps k.1 = none := by
      apply stepText_none
      intro hmem
      obtain ⟨s,hs,hkey⟩ := List.mem_map.mp hmem
      have hfront := hkeys s hs
      rw [hkey] at hfront
      exact (List.nodup_append.mp hnodup).2.2 _ hfront _ (List.mem_map_of_mem hk) rfl
    simp only [stepDrop,hnone]
  have hsum : ((numbered Prod.fst
    (((toolResults (messages.take (messages.length-protectedTail))).map Prod.fst).reverse ++ [])
      (toolResults (messages.drop (messages.length-protectedTail)))).map
      (stepDrop p.imageSize steps)).sum = 0 := by
    apply List.sum_eq_zero
    intro x hx
    obtain ⟨k,hk,rfl⟩ := List.mem_map.mp hx
    exact hzero k hk
  rw [hsum,add_zero]
  rfl

variable (p)

/-- A plan tells the truth about what it achieves: each step lowers the estimate of its result, the
count after it is no higher and is what the request is counted as once its steps are applied, and a
plan that is sufficient leaves the request within the threshold. -/
structure TellsTruth (messages : List Message) (already : List CallID)
    (done : List ResultKey) : Prop where
  lowers : ∀ s ∈ (p.planCompactionCalibrated messages already done).steps,
    ∀ c ∈ p.eligible messages already done, c.key = s.key → p.estimate s.text < c.tokens
  after_le : (p.planCompactionCalibrated messages already done).after ≤
    (p.planCompactionCalibrated messages already done).before
  recounts : p.scale (countRequestTokens p.imageSize p.systemPrompt p.tools
    ((p.planCompactionCalibrated messages already done).appliedTo messages)) =
      (p.planCompactionCalibrated messages already done).after
  fits : (p.planCompactionCalibrated messages already done).insufficient = false →
    p.scale (countRequestTokens p.imageSize p.systemPrompt p.tools
      ((p.planCompactionCalibrated messages already done).appliedTo messages)) ≤ p.budget.threshold

/-- What a stretch of the results must be for its shortening to be told truly: of each text that the
cut leaves with fewer bytes, more is left out than the notice counts for, and the seams of the
results that are shortened cancel. -/
structure Truthful (floor : ℤ) (taken : List (List ContentBlock)) : Prop where
  outweighs : ∀ content ∈ taken, pictures content = [] →
    size (compactToolResultText (joinedText content) floor) < size (joinedText content) →
      0 < cutWorth (joinedText content) floor
  cancels : ((taken.filter (fun content => Shrinks p.imageSize floor content)).map seams).sum = 0

/-- A history over the threshold has truthful results, as far as they are taken for the need at the
floor in force. -/
def TruthfulTexts (messages : List Message) (already : List CallID) (done : List ResultKey) :
    Prop :=
  0 < p.excess messages → ∀ floor taken,
    InForce p.imageSize (p.need messages) (compactible messages already done) floor →
      Stretch p.imageSize floor (p.need messages) (compactible messages already done) taken →
      p.Truthful floor taken

variable {p}

@[simp] lemma applyBlocks_nil (seen : List CallID) (blocks : List ContentBlock) :
    applyBlocks [] seen blocks = blocks := by
  induction blocks generalizing seen with
  | nil => rfl
  | cons b rest ih => cases b <;> simp [applyBlocks,stepText,ih]

@[simp] lemma applyMessages_nil (seen : List CallID) (messages : List Message) :
    applyMessages [] seen messages = messages := by
  induction messages generalizing seen with
  | nil => rfl
  | cons m rest ih => rw [applyMessages,applyBlocks_nil,ih]

lemma plan_within (hscale : p.scale = id) {messages : List Message} {already : List CallID}
    {done : List ResultKey}
    (hwithin : p.excess messages ≤ 0) : p.planCompactionCalibrated messages already done =
      ⟨[],countRequestTokens p.imageSize p.systemPrompt p.tools messages,
        countRequestTokens p.imageSize p.systemPrompt p.tools messages,false⟩ := by
  unfold planCompactionCalibrated
  unfold excess at hwithin
  rw [hscale]
  dsimp only [id_eq]
  rw [if_pos (by omega)]

/-- Within the threshold nothing is planned, and the plan says so. -/
lemma tellsTruth_within (hscale : p.scale = id) {messages : List Message} {already : List CallID}
    {done : List ResultKey}
    (hwithin : p.excess messages ≤ 0) : p.TellsTruth messages already done := by
  have hplan := @plan_within p hscale messages already done hwithin
  have hsame : (p.planCompactionCalibrated messages already done).appliedTo messages =
    messages := by
    rw [hplan]
    exact applyMessages_nil [] messages
  refine ⟨?_,?_,?_,?_⟩
  · rw [hplan]
    exact fun s hs => absurd hs List.not_mem_nil
  · rw [hplan]
  · rw [hsame,hplan,hscale]
    rfl
  · intro _
    rw [hsame,hscale]
    unfold excess at hwithin
    simp only [id_eq]
    omega

lemma openResults_sublist (messages : List Message) (already : List CallID)
    (done : List ResultKey) :
    (openResults messages already done).Sublist (exposedResults messages) := List.filter_sublist

lemma shrunk_taken {floor need : ℤ} {ks : List (ResultKey × CallID × List ContentBlock)}
    {taken : List (List ContentBlock)}
    (h : Stretch p.imageSize floor need (ks.map (fun k => k.2.2)) taken) :
    (p.shrunk floor (ks.take taken.length)).map (fun k => k.2.2) =
      taken.filter (fun content => Shrinks p.imageSize floor content) := by
  have htaken : (ks.take taken.length).map (fun k => k.2.2) = taken := by
    rw [List.map_take]
    exact (List.prefix_iff_eq_take.mp h.opens).symm
  conv_rhs => rw [← htaken,List.filter_map]
  rfl

lemma saving_shrunk (floor : ℤ) (taken : List (List ContentBlock)) :
    saving p.imageSize floor taken =
      fall p.imageSize floor (taken.filter (fun content => Shrinks p.imageSize floor content)) := by
  induction taken with
  | nil => rfl
  | cons r rs ih =>
    rw [saving_cons,saved,List.filter_cons,ih]
    by_cases hshrinks : Shrinks p.imageSize floor r
    · rw [if_pos hshrinks,if_pos (decide_eq_true hshrinks),fall,fall,List.map_cons,List.sum_cons]
    · rw [if_neg hshrinks,if_neg (by simpa using hshrinks),zero_add]

/-- What the request is counted as once the plan is applied. -/
lemma recount (hscale : p.scale = id) {messages : List Message} {already : List CallID}
    {done : List ResultKey}
    (hover : 0 < p.excess messages) {floor : ℤ} {taken : List (List ContentBlock)}
    (hforce : InForce p.imageSize (p.need messages) (compactible messages already done) floor)
    (htaken : Stretch p.imageSize floor (p.need messages)
      (compactible messages already done) taken) :
    p.scale (countRequestTokens p.imageSize p.systemPrompt p.tools
        ((p.planCompactionCalibrated messages already done).appliedTo messages)) =
      (p.planCompactionCalibrated messages already done).after-
        ((taken.filter (fun content => Shrinks p.imageSize floor content)).map seams).sum := by
  obtain ⟨hsteps,-,hafter,-⟩ := plan_stretch hscale hover hforce htaken
  have hcount := @count_applyMessages p.imageSize
    (p.planCompactionCalibrated messages already done).steps [] messages
  have hsub : (p.shrunk floor ((openResults messages already done).take taken.length)).Sublist
    (exposedResults messages) :=
    (List.filter_sublist.trans (List.take_sublist _ _)).trans
    (openResults_sublist messages already done)
  have hkeys : ∀ s ∈ (p.planCompactionCalibrated messages already done).steps,
      s.key ∈ (exposedResults messages).map Prod.fst := by
    intro s hs
    rw [hsteps] at hs
    obtain ⟨k,hk,rfl⟩ := List.mem_map.mp hs
    exact List.mem_map_of_mem (hsub.subset hk)
  have hdrop := @sum_stepDrop p floor _ _ (numbered_nodup [] _) hsub
  have hseams : (p.shrunk floor ((openResults messages already done).take taken.length)).map
    (fun k => seams k.2.2) =
      (taken.filter (fun content => Shrinks p.imageSize floor content)).map seams := by
    rw [← shrunk_taken htaken,List.map_map]
    rfl
  rw [hseams,shrunk_taken htaken,← saving_shrunk] at hdrop
  rw [sum_stepDrop_exposed hkeys] at hcount
  rw [hsteps] at hcount
  have hexposed : ((exposedResults messages).map (stepDrop p.imageSize
      ((p.shrunk floor ((openResults messages already done).take taken.length)).map
        (stepFor floor)))).sum = _ := hdrop
  rw [hexposed] at hcount
  rw [hafter,hscale]
  unfold countRequestTokens CompactionPlan.appliedTo
  rw [hsteps]
  simp only [id_eq]
  push_cast at hcount ⊢
  omega

/-- Two open results with one key are one. -/
lemma openResults_key_inj {messages : List Message} {already : List CallID} {done : List ResultKey}
    {k l : ResultKey × CallID × List ContentBlock} (hk : k ∈ openResults messages already done)
    (hl : l ∈ openResults messages already done) (h : k.1 = l.1) : k = l := by
  have hnodup : ((openResults messages already done).map Prod.fst).Nodup :=
    (numbered_nodup [] _).sublist ((openResults_sublist messages already done).map Prod.fst)
  exact List.inj_on_of_nodup_map hnodup hk hl h

/-- Each step lowers the price of its result exactly where the texts that are shortened outweigh the
notice. -/
lemma lowering_shrunk {floor : ℤ} {taken : List (List ContentBlock)}
    (htruth : p.Truthful floor taken)
    {content : List ContentBlock} (hmem : content ∈ taken)
    (hshrinks : Shrinks p.imageSize floor content) :
    0 < lowering p.imageSize floor content := by
  by_cases hnone : pictures content = []
  · rw [Shrinks,if_pos hnone,replacement,if_pos hnone] at hshrinks
    rw [lowering_cut hnone hshrinks]
    exact htruth.outweighs content hmem hnone hshrinks
  · rw [Shrinks,if_neg hnone] at hshrinks
    exact hshrinks

lemma tellsTruth_over (hscale : p.scale = id) {messages : List Message} {already : List CallID}
    {done : List ResultKey}
    (hover : 0 < p.excess messages) {floor : ℤ} {taken : List (List ContentBlock)}
    (hforce : InForce p.imageSize (p.need messages) (compactible messages already done) floor)
    (htaken : Stretch p.imageSize floor (p.need messages)
      (compactible messages already done) taken) :
    p.TellsTruth messages already done ↔ p.Truthful floor taken := by
  obtain ⟨hsteps,hbefore,hafter,hinsufficient⟩ := plan_stretch hscale hover hforce htaken
  have hrecount := recount hscale hover hforce htaken
  have hstretch := htaken.opens
  have hgain : ∀ k, p.estimate (replacement floor k.2.2) < (p.candidateOf k).tokens ↔
    0 < lowering p.imageSize floor k.2.2 := by
    intro k
    rw [← gain_candidateOf hscale,gain,shortened_candidateOf]
    exact sub_pos.symm
  have hkeep : ∀ k, k ∈ p.shrunk floor ((openResults messages already done).take taken.length) →
      k ∈ openResults messages already done :=
      fun k hk => List.mem_of_mem_take (List.mem_of_mem_filter hk)
  have hmem : ∀ content ∈ taken, Shrinks p.imageSize floor content →
      ∃ k ∈ p.shrunk floor ((openResults messages already done).take taken.length),
      k.2.2 = content := by
    intro content hcontent hshrinks
    have hfiltered : content ∈ (p.shrunk floor
      ((openResults messages already done).take taken.length)).map (fun k => k.2.2) := by
      rw [shrunk_taken htaken]
      exact List.mem_filter.mpr ⟨hcontent,decide_eq_true hshrinks⟩
    obtain ⟨k,hk,rfl⟩ := List.mem_map.mp hfiltered
    exact ⟨k,hk,rfl⟩
  constructor
  · intro h
    refine ⟨?_,?_⟩
    · intro content hcontent hnone hshort
      have hshrinks : Shrinks p.imageSize floor content := by
        rw [Shrinks,if_pos hnone,replacement,if_pos hnone]
        exact hshort
      obtain ⟨k,hk,rfl⟩ := hmem content hcontent hshrinks
      have hlow := h.lowers (stepFor floor k) (by rw [hsteps]; exact List.mem_map_of_mem hk)
        (p.candidateOf k)
        (by rw [eligible_eq]; exact List.mem_map_of_mem (hkeep k hk)) rfl
      rw [← lowering_cut hnone hshort]
      exact (hgain k).mp hlow
    · have hsame := h.recounts
      omega
  · intro htruth
    have hsame : p.scale (countRequestTokens p.imageSize p.systemPrompt p.tools
        ((p.planCompactionCalibrated messages already done).appliedTo messages)) =
          (p.planCompactionCalibrated messages already done).after := by
      rw [hrecount,htruth.cancels,sub_zero]
    have hlowers : ∀ k ∈ p.shrunk floor ((openResults messages already done).take taken.length),
        0 < lowering p.imageSize floor k.2.2 := by
      intro k hk
      have hcontent : k.2.2 ∈ taken.filter (fun content => Shrinks p.imageSize floor content) := by
        rw [← shrunk_taken htaken]
        exact List.mem_map_of_mem hk
      obtain ⟨hcontent,hshrinks⟩ := List.mem_filter.mp hcontent
      exact lowering_shrunk htruth hcontent (of_decide_eq_true hshrinks)
    refine ⟨?_,?_,hsame,?_⟩
    · intro s hs c hc hkey
      rw [hsteps] at hs
      obtain ⟨k,hk,rfl⟩ := List.mem_map.mp hs
      rw [eligible_eq] at hc
      obtain ⟨l,hl,rfl⟩ := List.mem_map.mp hc
      cases openResults_key_inj hl (hkeep k hk) hkey
      exact (hgain k).mpr (hlowers k hk)
    · rw [hafter,hbefore,saving_shrunk,← shrunk_taken htaken,fall,List.map_map]
      have hsum : 0 ≤ ((p.shrunk floor ((openResults messages already done).take taken.length)).map
          (lowering p.imageSize floor ∘ fun k => k.2.2)).sum := by
        apply List.sum_nonneg
        intro x hx
        obtain ⟨k,hk,rfl⟩ := List.mem_map.mp hx
        exact (hlowers k hk).le
      omega
    · intro hsufficient
      rw [hsame]
      rw [hsufficient] at hinsufficient
      have henough : ¬ saving p.imageSize floor taken < p.excess messages :=
        fun hless => absurd (hinsufficient.mpr hless) (by simp)
      rw [hafter]
      unfold excess at henough
      omega

/-- Without a calibrator a plan tells the truth exactly where of each text that is cut to fewer
bytes more is left out than the notice counts for, and the seams of the results that are shortened
cancel. -/
theorem tellsTruth_iff (systemPrompt : String) (tools : List ToolSchema) (budget : Budget)
    (imageSize : List UInt8 → Option (ℕ × ℕ)) (messages : List Message) (already : List CallID)
    (done : List ResultKey) :
    (plain systemPrompt tools budget imageSize).TellsTruth messages already done ↔
      (plain systemPrompt tools budget imageSize).TruthfulTexts messages already done := by
  by_cases hover : 0 < (plain systemPrompt tools budget imageSize).excess messages
  · constructor
    · intro htells _ floor taken hforce htaken
      exact (tellsTruth_over rfl hover hforce htaken).mp htells
    · intro htexts
      have hforce := @chooseFloor_inForce (plain systemPrompt tools budget imageSize) rfl
        ((plain systemPrompt tools budget imageSize).need messages)
        (openResults messages already done)
      obtain ⟨taken,htaken⟩ := @exists_stretch imageSize _
        ((plain systemPrompt tools budget imageSize).need messages)
        (compactible messages already done)
      exact (tellsTruth_over rfl hover hforce htaken).mpr (htexts hover _ taken hforce htaken)
  · exact ⟨fun _ h => (hover h).elim,fun _ => tellsTruth_within rfl (not_lt.mp hover)⟩

/-- The plan for a long word and a picture raises the estimate of the word. -/
theorem step_raises_estimate :
    ¬ (plain "" [] ⟨4868,0,0⟩ (fun _ => none)).TellsTruth lossyHistory [] [] := by
  intro h
  have hsteps : 0 < ((plain "" [] ⟨4868,0,
    0⟩ (fun _ => none)).planCompactionCalibrated lossyHistory [] []).steps.length := by
    decide +kernel
  have hcands : 0 < ((plain "" [] ⟨4868,0,
    0⟩ (fun _ => none)).eligible lossyHistory [] []).length := by
    decide +kernel
  exact absurd (h.lowers _ (List.getElem_mem hsteps) _ (List.getElem_mem hcands)
    (by decide +kernel +revert))
    (by decide +kernel +revert)

end Planning
end Manvi.Agent
