import Manvi.LLM.Message

/-! Adapting a history for a target adapter and model, and the report of what is lost on the way. -/
namespace Manvi.LLM
open Manvi.Encoding

/-- One message's loss, as the log records it. -/
structure Drop where
  messageIndex : ℕ
  fromProvider : String
  fromModel : String
  toProvider : String
  toModel : String
  blocks : List String
  replayState : Bool
  emptied : Bool
  deriving Repr, DecidableEq

/-- What a provider answers for itself: its name and, when it is a ReasoningReplayer, whether
reasoning of one model may be sent to another. -/
structure Target where
  name : String
  replayableOn : Option (String → String → Bool)

/-- Whether the adapter takes back what the message was produced with. -/
def Target.replayable (target : Target) (p : AssistantProvenance) (targetModel : String) : Bool :=
  let sameProvider := p.provider = target.name
  let sameModel := sameProvider ∧ p.model = targetModel
  match target.replayableOn with
  | some replayableOn => if sameProvider then replayableOn p.model targetModel else sameModel
  | none => sameModel

/-- The blocks that are left without reasoning. -/
def withoutReasoning (content : List ContentBlock) : List ContentBlock :=
  content.filter (fun b => !b.isReasoning)

/-- The kinds of the blocks that are removed, one for each. -/
def removedKinds (content : List ContentBlock) : List String :=
  (content.filter ContentBlock.isReasoning).map (fun _ => "reasoning")

/-- What a message is sent as, if at all, and what is reported lost of it. -/
structure Fate where
  sent : Option Message
  drop : Option Drop

/-- One round of the loop over a history. -/
def prepareMessage (target : Target) (targetModel : String) (i : ℕ) (msg : Message) : Fate :=
  match msg.role,msg.provenance with
  | .assistant,some p =>
    if target.replayable p targetModel then ⟨some msg,none⟩
    else
      let filtered := withoutReasoning msg.content
      let drop : Drop := ⟨i,p.provider,p.model,target.name,targetModel,removedKinds msg.content,
        !p.replayState.isEmpty,false⟩
      if filtered = [] then ⟨none,some { drop with emptied := true }⟩
      else
        ⟨some { msg with content := filtered, provenance := some ⟨p.provider,p.model,[]⟩ },
          if drop.blocks ≠ [] ∨ drop.replayState then some drop else none⟩
  | _,_ => ⟨some msg,none⟩

def prepareHistory (target : Target) (targetModel : String) :
    ℕ → List Message → List Message × List Drop
  | _,[] => ([],[])
  | i,msg :: rest =>
    let fate := prepareMessage target targetModel i msg
    let r := prepareHistory target targetModel (i+1) rest
    (fate.sent.toList ++ r.1,fate.drop.toList ++ r.2)

/-- Adapt a history for a target; a missing one hands the messages back untouched. -/
def prepareHistoryFor (messages : List Message) (target : Option Target) (targetModel : String) :
    List Message × List Drop :=
  match target with
  | none => (messages,[])
  | some t => prepareHistory t targetModel 0 messages

/-! The report is the difference. -/

def Message.reasoningCount (m : Message) : ℕ := m.content.countP ContentBlock.isReasoning

def Message.hasReplayState (m : Message) : Prop := ∃ p ∈ m.provenance, p.replayState ≠ []

/-- The fate of the message at i, where its report says all that it lost. -/
structure Accounted (i : ℕ) (m : Message) (f : Fate) : Prop where
  other : m.role ≠ .assistant → f = ⟨some m,none⟩
  unreported : f.drop = none → f.sent = some m
  place : ∀ d ∈ f.drop, d.messageIndex = i
  omitted : f.sent = none ↔ ∃ d ∈ f.drop, d.emptied = true
  reasoning : (f.sent.elim 0 Message.reasoningCount)+(f.drop.elim 0 (fun d => d.blocks.length)) =
    m.reasoningCount
  replay : (∃ d ∈ f.drop, d.replayState = true) ↔
    m.hasReplayState ∧ ∀ s ∈ f.sent, ¬ s.hasReplayState
  role : ∀ s ∈ f.sent, s.role = m.role
  rest : ((f.sent.elim [] Message.content).filter (fun b => !b.isReasoning)) =
    m.content.filter (fun b => !b.isReasoning)
  producer : ∀ s ∈ f.sent, s.provenance.map (fun p => (p.provider,p.model)) =
    m.provenance.map (fun p => (p.provider,p.model))

lemma accounted_kept (i : ℕ) (m : Message) : Accounted i m ⟨some m,none⟩ where
  other _ := rfl
  unreported _ := rfl
  place := by simp
  omitted := by simp
  reasoning := by simp
  replay := by simp
  role := by simp
  rest := rfl
  producer := by simp

@[simp] lemma length_removedKinds (content : List ContentBlock) :
    (removedKinds content).length = content.countP ContentBlock.isReasoning := by
  rw [removedKinds,List.length_map,List.countP_eq_length_filter]

lemma countP_withoutReasoning (content : List ContentBlock) :
    (withoutReasoning content).countP ContentBlock.isReasoning = 0 := by
  apply List.countP_eq_zero.mpr
  intro b hb
  simpa using (List.mem_filter.mp hb).2

lemma withoutReasoning_idem (content : List ContentBlock) :
    withoutReasoning (withoutReasoning content) = withoutReasoning content := by
  unfold withoutReasoning
  rw [List.filter_filter]
  simp only [Bool.and_self]

/-- Content without reasoning to remove is left as it is. -/
lemma withoutReasoning_of_removedKinds_eq_nil {content : List ContentBlock}
    (h : removedKinds content = []) :
    withoutReasoning content = content := by
  apply List.filter_eq_self.mpr
  intro b hb
  have hnone := List.filter_eq_nil_iff.mp (List.map_eq_nil_iff.mp h) b hb
  simpa using hnone

section stripped
variable {m : Message} {p : AssistantProvenance} (hrole : m.role = .assistant)
  (hp : m.provenance = some p)

include hp in
lemma hasReplayState_iff : m.hasReplayState ↔ p.replayState ≠ [] := by
  simp [Message.hasReplayState,hp]

include hrole hp in
/-- A message that is reasoning throughout is omitted, and its report says so. -/
lemma accounted_emptied {d : Drop} (hi : withoutReasoning m.content = [])
    (hb : d.blocks = removedKinds m.content) (hr : d.replayState = !p.replayState.isEmpty)
    (he : d.emptied = true) : Accounted d.messageIndex m ⟨none,some d⟩ where
  other h := (h hrole).elim
  unreported h := by cases h
  place := by simp
  omitted := by simp [he]
  reasoning := by
    change 0+d.blocks.length = _
    rw [hb,length_removedKinds,Nat.zero_add]
    rfl
  replay := by simp [hr,hasReplayState_iff hp]
  role := by simp
  rest := hi.symm
  producer := by simp

include hrole hp in
/-- A message that keeps something is sent without its reasoning and its replay state. -/
lemma accounted_stripped {d : Drop} (hb : d.blocks = removedKinds m.content)
    (hr : d.replayState = !p.replayState.isEmpty) (he : d.emptied = false) :
    Accounted d.messageIndex m ⟨some { m with
      content := withoutReasoning m.content, provenance := some ⟨p.provider,p.model,[]⟩ },
      if d.blocks ≠ [] ∨ d.replayState then some d else none⟩ := by
  by_cases hd : d.blocks ≠ [] ∨ d.replayState = true
  · rw [if_pos hd]
    refine ⟨fun h => (h hrole).elim,by simp,by simp,by simp [he],?_,?_,by simp,?_,by simp [hp]⟩
    · change (withoutReasoning m.content).countP _+d.blocks.length = _
      rw [countP_withoutReasoning,hb,length_removedKinds,Nat.zero_add]
      rfl
    · simp [hr,hp,Message.hasReplayState]
    · exact withoutReasoning_idem m.content
  · rw [if_neg hd]
    obtain ⟨hnone,hstate⟩ := not_or.mp hd
    have hcontent : withoutReasoning m.content = m.content :=
      withoutReasoning_of_removedKinds_eq_nil (hb ▸ not_not.mp hnone)
    have hempty : p.replayState = [] := by
      rw [hr] at hstate
      simpa using hstate
    obtain ⟨provider,model,state⟩ := p
    obtain ⟨role,content,provenance⟩ := m
    simp only at hempty hcontent hp
    rw [hcontent,hp,hempty]
    exact accounted_kept _ _

end stripped

/-- What one message becomes is what its report says. -/
theorem prepareMessage_accounted (target : Target) (targetModel : String) (i : ℕ) (m : Message) :
    Accounted i m (prepareMessage target targetModel i m) := by
  unfold prepareMessage
  split
  · rename_i p hrole hp
    by_cases hr : target.replayable p targetModel = true
    · rw [if_pos hr]
      exact accounted_kept i m
    rw [if_neg hr]
    by_cases hf : withoutReasoning m.content = []
    · simp only [hf,if_true]
      exact accounted_emptied hrole hp (d := ⟨i,p.provider,p.model,target.name,targetModel,
        removedKinds m.content,!p.replayState.isEmpty,true⟩) hf rfl rfl rfl
    · simp only [hf,if_false]
      exact accounted_stripped hrole hp (d := ⟨i,p.provider,p.model,target.name,targetModel,
        removedKinds m.content,!p.replayState.isEmpty,false⟩) rfl rfl rfl
  · exact accounted_kept i m

/-- The fates of a history, in its order. -/
def fates (target : Option Target) (targetModel : String) : ℕ → List Message → List Fate
  | _,[] => []
  | i,m :: rest =>
    target.elim ⟨some m,none⟩ (fun t =>
      prepareMessage t targetModel i m) :: fates target targetModel (i+1) rest

@[simp] lemma fates_length (target : Option Target) (targetModel : String) (i : ℕ)
    (msgs : List Message) :
    (fates target targetModel i msgs).length = msgs.length := by
  induction msgs generalizing i with
  | nil => rfl
  | cons m msgs ih => rw [fates,List.length_cons,List.length_cons,ih]

lemma fates_accounted (target : Option Target) (targetModel : String) (i n : ℕ)
    (msgs : List Message)
    {m : Message} {f : Fate} (hm : msgs[n]? = some m)
    (hf : (fates target targetModel i msgs)[n]? = some f) :
    Accounted (i+n) m f := by
  induction msgs generalizing i n with
  | nil => cases hm
  | cons a msgs ih =>
    rw [fates] at hf
    cases n with
    | zero =>
      cases hm
      cases hf
      cases target with
      | none => exact accounted_kept i m
      | some t => exact prepareMessage_accounted t targetModel i m
    | succ n =>
      rw [List.getElem?_cons_succ] at hm hf
      have hrec := ih (i+1) n hm hf
      rwa [Nat.add_right_comm,Nat.add_assoc] at hrec

lemma prepareHistory_fates (target : Target) (targetModel : String) (i : ℕ) (msgs : List Message) :
    prepareHistory target targetModel i msgs =
      ((fates (some target) targetModel i msgs).filterMap Fate.sent,
        (fates (some target) targetModel i msgs).filterMap Fate.drop) := by
  induction msgs generalizing i with
  | nil => rfl
  | cons m msgs ih =>
    rw [prepareHistory,ih,fates]
    simp only [List.filterMap_cons,Option.elim_some]
    cases (prepareMessage target targetModel i m).sent <;>
      cases (prepareMessage target targetModel i m).drop <;> rfl

lemma fates_none (targetModel : String) (i : ℕ) (msgs : List Message) :
    (fates none targetModel i msgs).filterMap Fate.sent = msgs ∧
      (fates none targetModel i msgs).filterMap Fate.drop = [] := by
  induction msgs generalizing i with
  | nil => exact ⟨rfl,rfl⟩
  | cons m msgs ih =>
    obtain ⟨h1,h2⟩ := ih (i+1)
    simp only [fates,List.filterMap_cons,Option.elim_none,h1,h2,and_self]

/-- What is sent and what is reported are the fates of the messages, each accounted for. -/
theorem prepareHistoryFor_fates (msgs : List Message) (target : Option Target)
    (targetModel : String) :
    prepareHistoryFor msgs target targetModel =
      ((fates target targetModel 0 msgs).filterMap Fate.sent,
        (fates target targetModel 0 msgs).filterMap Fate.drop) := by
  cases target with
  | none =>
    obtain ⟨h1,h2⟩ := fates_none targetModel 0 msgs
    rw [h1,h2]
    rfl
  | some t => exact prepareHistory_fates t targetModel 0 msgs

end Manvi.LLM
