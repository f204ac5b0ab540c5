import Manvi.Agent.Turn

/-! Every call is answered, and turns and steps are nested, however the turns are left. -/
namespace Manvi.Agent
open Manvi.LLM Manvi.Session Manvi.Program

/-- The ids of a message's calls. -/
def callIDs (m : Message) : List CallID := (toolCalls m).map ToolCall.id

/-- How far a log has come: the calls that await a result, and what is open. -/
@[ext] structure Scan where
  awaiting : List CallID
  turnOpen : Bool
  stepOpen : Bool
  deriving Repr, DecidableEq

namespace Scan

def closed : Scan := ⟨[],false,false⟩

/-- A record at its place: brackets nest, a message comes when no call awaits a result, and a result
answers a call that does. -/
def next (s : Scan) : LogEvent → Option Scan
  | .turnStart => if !s.turnOpen && !s.stepOpen then some { s with turnOpen := true } else none
  | .stepStart => if s.turnOpen && !s.stepOpen then some { s with stepOpen := true } else none
  | .stepEnd _ => if s.turnOpen && s.stepOpen then some { s with stepOpen := false } else none
  | .turnEnd => if s.turnOpen && !s.stepOpen then some { s with turnOpen := false } else none
  | .userMessage _ _ => if s.awaiting = [] then some s else none
  | .assistantMessage m => if s.awaiting = [] then some { s with awaiting := callIDs m } else none
  | .toolResult d =>
    if d.toolCallID ∈ s.awaiting then some { s with awaiting := s.awaiting.erase d.toolCallID }
      else none
  | _ => some s

/-- The records of a log, each at its place. -/
def through (s : Scan) (log : List LogEvent) : Option Scan := log.foldlM next s

@[simp] lemma through_nil (s : Scan) : s.through [] = some s := rfl

@[simp] lemma through_cons (s : Scan) (e : LogEvent) (log : List LogEvent) :
    s.through (e :: log) = (s.next e).bind (fun s => s.through log) := rfl

@[simp] lemma through_append (s : Scan) (log log' : List LogEvent) :
    s.through (log ++ log') = (s.through log).bind (fun s => s.through log') := by
  unfold through
  rw [List.foldlM_append]
  rfl

lemma through_snoc {s s' : Scan} {log : List LogEvent} (h : s.through log = some s')
    (e : LogEvent) :
    s.through (log ++ [e]) = s'.next e := by
  rw [through_append,h]
  exact Option.bind_fun_some _

/-- Records that are not seen are anywhere at their place. -/
lemma through_filter_isMark (s : Scan) (log : List LogEvent) :
    s.through (log.filter LogEvent.isMark) = s.through log := by
  induction log generalizing s with
  | nil => rfl
  | cons e log ih =>
    rw [List.filter_cons]
    by_cases he : e.isMark = true
    · rw [if_pos he,through_cons,through_cons]
      simp only [ih]
    · rw [if_neg he,ih,through_cons]
      have hnext : s.next e = some s := by
        cases e with
        | systemPrompt _ => rfl
        | toolResultCompacted _ => rfl
        | note _ => rfl
        | _ => exact absurd rfl he
      rw [hnext]
      rfl

/-- A step is open only in a turn. -/
def Nested (s : Scan) : Prop := s.stepOpen = true → s.turnOpen = true

lemma next_nested {s s' : Scan} {e : LogEvent} (h : s.next e = some s') (hs : s.Nested) :
    s'.Nested := by
  unfold next at h
  unfold Nested at *
  cases e <;> simp only [Option.ite_none_right_eq_some,Option.some.injEq] at h <;> grind

lemma turnOpen_of_stepOpen {s : Scan} {log : List LogEvent} (h : closed.through log = some s)
    (hopen : s.stepOpen = true) : s.turnOpen = true := by
  have hnested : ∀ {s s' : Scan}, s.Nested → s.through log = some s' → s'.Nested := by
    clear h hopen
    induction log with
    | nil =>
      intro s s' hs h
      cases h
      exact hs
    | cons e log ih =>
      intro s s' hs h
      rw [through_cons,Option.bind_eq_some_iff] at h
      obtain ⟨s1,hnext,h⟩ := h
      exact ih (next_nested hnext hs) h
  have hclosed : closed.Nested := by
    intro hstep
    cases hstep
  exact hnested hclosed h hopen

end Scan

namespace View

/-- The records so far are at their places, and lead to what is open. -/
def Scanned (v : View) : Prop :=
  Scan.closed.through v.marks = some ⟨v.openCalls,v.turnOpen,v.stepOpen⟩

/-- Where in a turn a view stands. -/
structure Stands (v : View) (awaiting : List CallID) (turnOpen stepOpen : Bool) : Prop where
  scanned : v.Scanned
  openCalls : v.openCalls = awaiting
  turnOpen : v.turnOpen = turnOpen
  stepOpen : v.stepOpen = stepOpen

variable {v : View} {ids : List CallID}

/-- A record that leads to what is open next. -/
lemma Stands.record {t st t' st' : Bool} {ids' : List CallID} (h : v.Stands ids t st) {e : LogEvent}
    {v' : View}
    (hmarks : v'.marks = v.marks ++ [e]) (hnext : Scan.next ⟨ids,t,st⟩ e = some ⟨ids',t',st'⟩)
    (hids : v'.openCalls = ids') (hturn : v'.turnOpen = t') (hstep : v'.stepOpen = st') :
    v'.Stands ids' t' st' := by
  obtain ⟨hscanned,rfl,rfl,rfl⟩ := h
  refine ⟨?_,hids,hturn,hstep⟩
  unfold Scanned
  rw [hmarks,Scan.through_snoc hscanned,hnext,hids,hturn,hstep]

lemma Stands.entered (h : v.Stands [] true false) : v.entered.Stands [] true true :=
  h.record rfl rfl h.openCalls h.turnOpen rfl

lemma Stands.answered (h : v.Stands [] true true) (m : Message) :
    (v.answered m).Stands (callIDs m) true true :=
  h.record rfl rfl rfl h.turnOpen h.stepOpen

lemma Stands.absorbed {t st : Bool} (h : v.Stands ids t st) (usage : Usage) (charge : ℤ × Bool) :
    (v.absorbed usage charge).Stands ids t st := by
  unfold View.absorbed charged
  split_ifs <;> exact ⟨h.scanned,h.openCalls,h.turnOpen,h.stepOpen⟩

lemma Stands.resolved {id : CallID} {t st : Bool} (h : v.Stands (id :: ids) t st)
    {d : ToolResultData}
    (hd : d.toolCallID = id) : (v.resolved d).Stands ids t st := by
  have herase : v.openCalls.erase d.toolCallID = ids := by
    rw [h.openCalls,hd,List.erase_cons_head]
  refine h.record rfl ?_ herase h.turnOpen h.stepOpen
  simp [Scan.next,hd]

lemma Stands.message {st : Bool} (h : v.Stands [] true st) (m : Message) (origin : String) :
    (v.mark (.userMessage m origin)).Stands [] true st :=
  h.record rfl rfl h.openCalls h.turnOpen h.stepOpen

lemma Stands.ended (h : v.Stands ids true true) : v.ended.Stands ids true false :=
  h.record rfl rfl h.openCalls h.turnOpen rfl

lemma Stands.turnEnded (h : v.Stands ids true false) :
    { v.mark .turnEnd with turnOpen := false }.Stands ids false false :=
  h.record rfl rfl h.openCalls rfl h.stepOpen

end View

namespace Loop

lemma leaves_scanned {P : View → Prop} (h : ∀ v, P v → v.Scanned) :
    Leaves P (fun _ => View.Scanned) := ⟨h,h⟩

/-- One round records each thing at its place. -/
def scanningRound (w : World) (cfg : Config) : Round w cfg (fun _ => View.Scanned) where
  before v := v.Stands [] true false
  entered v := v.Stands [] true true
  absorbed response v := v.Stands (callIDs response.message) true true
  dispatching _ calls v := v.Stands (calls.map ToolCall.id) true true
  charged _ v := v.Stands [] true true
  next v := v.Stands [] true false
  stopped v := v.Stands [] true false
  stop _ hv _ := hv
  enter _ hv _ := hv.entered
  absorb v response charge hv _ := (hv.answered response.message).absorbed response.usage charge
  retry v response step hv hcalls _ := by
    have hids : callIDs response.message = [] := by
      rw [callIDs,hcalls]
      rfl
    rw [hids] at hv
    have hretried : (v.retried step (v.nullRetries+1)).Stands [] true true :=
      hv.record rfl rfl hv.openCalls hv.turnOpen hv.stepOpen
    exact hretried.ended
  dispatch _ _ hv := hv
  resolve _ _ _ _ _ hv hd := hv.resolved hd
  charge _ _ _ hv _ _ := ⟨hv.scanned,hv.openCalls,hv.turnOpen,hv.stepOpen⟩
  report _ _ m hv := (hv.message m "").ended
  go _ _ hv := hv.ended
  close _ _ hv := hv.ended
  bounce _ _ m hv _ :=
    have hmessage := hv.ended.message m originHarness
    ⟨hmessage.scanned,hmessage.openCalls,hmessage.turnOpen,hmessage.stepOpen⟩
  leavesBefore := leaves_scanned (fun _ hv => hv.scanned)
  leavesEntered := leaves_scanned (fun _ hv => hv.scanned)
  leavesSent := by
    apply leaves_scanned
    rintro v ⟨v',hv,rfl⟩
    exact hv.scanned
  leavesPricing _ response hv := (hv.answered response.message).scanned
  leavesAbsorbed _ := leaves_scanned (fun _ hv => hv.scanned)
  leavesRetry _ _ hv _ := hv.scanned
  leavesRetried _ v response step hv _ := by
    have hretried : (v.retried step (v.nullRetries+1)).Stands
      (callIDs response.message) true true :=
      hv.record rfl rfl hv.openCalls hv.turnOpen hv.stepOpen
    exact hretried.scanned
  leavesDispatching _ _ := leaves_scanned (fun _ hv => hv.scanned)
  leavesCharged _ _ hv := hv.scanned
  leavesReported _ _ _ m hv := (hv.message m "").scanned
  leavesEnding _ _ _ hv := hv.scanned
  leavesEnded _ := by
    apply leaves_scanned
    rintro v ⟨v',hv,rfl⟩
    exact hv.ended.scanned

lemma turn_scanned (w : World) (cfg : Config) (prompt : Message) (held : List LogEvent) :
    Phase held (fun v => v.Stands [] false false) (turn w cfg prompt) (fun _ => View.Scanned)
    (fun _ => View.Scanned) := by
  have hrounds : Phase held (fun v => v.Stands [] true false) (rounds w cfg (cfg.maxSteps+1) 1)
      (fun _ v => v.Stands [] true false) (fun _ => View.Scanned) := by
    apply rounds_rule (J := fun _ v => v.Stands [] true false)
    · intro fuel step
      refine ((scanningRound w cfg).iterate_rule step).weaken (fun _ hl => hl) ?_ (fun _ _ hl => hl)
      intro stop l hl
      cases stop with
      | false => exact hl
      | true => exact hl
    · exact fun _ hv => hv.scanned
  have hfresh : ∀ v : View, v.Stands [] false false → v.fresh.Stands [] false false := by
    intro v hv
    refine ⟨?_,rfl,hv.turnOpen,hv.stepOpen⟩
    have hscanned := hv.scanned
    unfold View.Scanned at hscanned
    rw [hv.openCalls] at hscanned
    exact hscanned
  have hbegun : ∀ v : View, v.Stands [] false false → v.begun.Stands [] true false :=
    fun v hv => (hfresh v hv).record rfl rfl rfl rfl hv.stepOpen
  refine turn_rule ?_ (leaves_scanned ?_) ?_ hrounds ?_ ?_
  · exact fun v hv => (hfresh v hv).scanned
  · rintro v ⟨v',hv,rfl⟩
    exact (hbegun v' hv).scanned
  · exact fun v hv => (hbegun v hv).message prompt ""
  · exact fun v hv => hv.scanned
  · exact fun v hv => hv.turnEnded.scanned

/-- The closing leads every log to where nothing is open. -/
lemma closeOpenBoundaries_scanned {w : World} (haccepts : ¬ w.closing.Refuses)
    {held : List LogEvent} {l : Loop}
    (hl : Over held View.Scanned l) :
    Over held (fun v => v.Stands [] false false) (closeOpenBoundaries w l) := by
  refine closeOpenBoundaries_rule (I := fun ids v => v.Stands ids v.turnOpen v.stepOpen)
    (J := fun v => v.Stands [] v.turnOpen v.stepOpen) (S := fun v => v.Stands [] v.turnOpen false)
    (fun _ hv => ⟨hv,rfl,rfl,rfl⟩) ?_ (fun hrefuses => absurd hrefuses haccepts) (fun _ hv =>
      hv) ?_ ?_
    (fun hrefuses => absurd hrefuses haccepts) ?_ ?_ (fun hrefuses => absurd hrefuses haccepts) hl
  · intro id ids v hv
    refine hv.record (e := .toolResult ⟨id,unwoundCallText,[],true⟩) rfl ?_ rfl rfl rfl
    simp [Scan.next]
    exact ⟨rfl,rfl⟩
  · intro v hv hopen
    have hturn : v.turnOpen = true := Scan.turnOpen_of_stepOpen hv.scanned hopen
    rw [hturn,hopen] at hv
    have hended := hv.ended
    rwa [← hended.turnOpen] at hended
  · intro v hv hopen
    rwa [hopen] at hv
  · intro v hv hopen
    rw [hopen] at hv
    exact hv.turnEnded
  · intro v hv hopen
    rwa [hopen] at hv

/-- Between turns every record is at its place, and nothing is open. -/
theorem Rested.scanned {cfg : Config} {held : List LogEvent} {l : Loop} (h : Rested cfg held l) :
    Over held (fun v => v.Stands [] false false) l := by
  induction h with
  | new =>
    refine ⟨List.prefix_rfl,?_,rfl,rfl,rfl⟩
    simp [View.Scanned,view,newOver,newLoop,Scan.closed]
  | turn w prompt haccepts _ ih =>
    obtain ⟨l',hrun,hl'⟩ := run_rule (F := fun _ => View.Scanned) (turn_scanned w cfg prompt held)
      (fun _ _ hv => hv) ih
    rw [hrun]
    exact closeOpenBoundaries_scanned haccepts hl'

end Loop

/-! What a log is like whose records are all at their places. -/

def LogEvent.isMessage : LogEvent → Bool
  | .userMessage _ _ => true
  | .assistantMessage _ => true
  | _ => false

/-- The call that a record answers. -/
def LogEvent.answers : LogEvent → Option CallID
  | .toolResult d => some d.toolCallID
  | _ => none

/-- The calls answered before the next message. -/
def answered (log : List LogEvent) : List CallID :=
  (log.takeWhile (fun e => !e.isMessage)).filterMap LogEvent.answers

/-- The brackets of a log. -/
inductive Bracket where
  | turnStart
  | stepStart
  | stepEnd
  | turnEnd
  deriving Repr, DecidableEq

def LogEvent.bracket : LogEvent → Option Bracket
  | .turnStart => some .turnStart
  | .stepStart => some .stepStart
  | .stepEnd _ => some .stepEnd
  | .turnEnd => some .turnEnd
  | _ => none

/-- Steps one after the other. -/
def stepBrackets (n : ℕ) : List Bracket := (List.replicate n [Bracket.stepStart,.stepEnd]).flatten

/-- Turns one after the other, each around its steps. -/
def turnBrackets (turns : List ℕ) : List Bracket :=
  turns.flatMap (fun n => .turnStart :: stepBrackets n ++ [.turnEnd])

namespace Scan

/-- Only messages and results change what is awaited. -/
lemma next_awaiting {s s' : Scan} {e : LogEvent} (h : s.next e = some s')
    (hmessage : e.isMessage = false)
    (hanswers : e.answers = none) : s'.awaiting = s.awaiting := by
  cases e with
  | userMessage _ _ => cases hmessage
  | assistantMessage _ => cases hmessage
  | toolResult _ => cases hanswers
  | systemPrompt _ => cases h; rfl
  | toolResultCompacted _ => cases h; rfl
  | note _ => cases h; rfl
  | _ =>
    simp only [next,Option.ite_none_right_eq_some,Option.some.injEq] at h
    rw [← h.2]

/-- Only brackets change what is open. -/
lemma next_open {s s' : Scan} {e : LogEvent} (h : s.next e = some s') (he : e.bracket = none) :
    s'.turnOpen = s.turnOpen ∧ s'.stepOpen = s.stepOpen := by
  cases e with
  | turnStart => cases he
  | turnEnd => cases he
  | stepStart => cases he
  | stepEnd _ => cases he
  | systemPrompt _ => cases h; exact ⟨rfl,rfl⟩
  | toolResultCompacted _ => cases h; exact ⟨rfl,rfl⟩
  | note _ => cases h; exact ⟨rfl,rfl⟩
  | _ =>
    simp only [next,Option.ite_none_right_eq_some,Option.some.injEq] at h
    rw [← h.2]
    exact ⟨rfl,rfl⟩

/-- A log that leaves no call open answers, before its next message, just the calls that await
it. -/
lemma answered_perm {s s' : Scan} {log : List LogEvent} (h : s.through log = some s')
    (hs' : s'.awaiting = []) :
    (answered log).Perm s.awaiting := by
  induction log generalizing s with
  | nil =>
    cases h
    rw [hs']
    rfl
  | cons e log ih =>
    rw [through_cons,Option.bind_eq_some_iff] at h
    obtain ⟨s1,hnext,h⟩ := h
    have hrest := ih h
    cases e with
    | userMessage m origin =>
      simp only [next,Option.ite_none_right_eq_some] at hnext
      rw [hnext.1]
      rfl
    | assistantMessage m =>
      simp only [next,Option.ite_none_right_eq_some] at hnext
      rw [hnext.1]
      rfl
    | toolResult d =>
      simp only [next,Option.ite_none_right_eq_some,Option.some.injEq] at hnext
      obtain ⟨hmem,rfl⟩ := hnext
      change (d.toolCallID :: answered log).Perm s.awaiting
      exact (hrest.cons _).trans (List.perm_cons_erase hmem).symm
    | _ =>
      rw [next_awaiting hnext rfl rfl] at hrest
      exact hrest

/-- The brackets that lead from what is open to where nothing is. -/
def Closes (s : Scan) (brackets : List Bracket) : Prop :=
  match s.turnOpen, s.stepOpen with
  | false,false => ∃ turns, brackets = turnBrackets turns
  | true,false => ∃ n turns, brackets = stepBrackets n ++ .turnEnd :: turnBrackets turns
  | true,true => ∃ n turns, brackets = .stepEnd :: stepBrackets n ++ .turnEnd :: turnBrackets turns
  | false,true => False

lemma closes_brackets {s s' : Scan} {log : List LogEvent} (h : s.through log = some s')
    (hturn : s'.turnOpen = false)
    (hstep : s'.stepOpen = false) : s.Closes (log.filterMap LogEvent.bracket) := by
  induction log generalizing s with
  | nil =>
    cases h
    unfold Closes
    rw [hturn,hstep]
    exact ⟨[],rfl⟩
  | cons e log ih =>
    rw [through_cons,Option.bind_eq_some_iff] at h
    obtain ⟨s1,hnext,h⟩ := h
    have hrest := ih h
    cases hb : e.bracket with
    | none =>
      obtain ⟨ht,hst⟩ := next_open hnext hb
      rw [List.filterMap_cons_none hb]
      unfold Closes at hrest ⊢
      rwa [ht,hst] at hrest
    | some b =>
      rw [List.filterMap_cons_some hb]
      obtain ⟨ids,t,st⟩ := s
      cases e with
      | turnStart =>
        simp only [next,Option.ite_none_right_eq_some,Bool.and_eq_true,Bool.not_eq_true'] at hnext
        obtain ⟨⟨rfl,rfl⟩,hs1⟩ := hnext
        cases hs1
        cases hb
        obtain ⟨n,turns,hrest⟩ := hrest
        exact ⟨n :: turns,by rw [hrest]; simp [turnBrackets]⟩
      | stepStart =>
        simp only [next,Option.ite_none_right_eq_some,Bool.and_eq_true,Bool.not_eq_true'] at hnext
        obtain ⟨⟨rfl,rfl⟩,hs1⟩ := hnext
        cases hs1
        cases hb
        obtain ⟨n,turns,hrest⟩ := hrest
        exact ⟨n+1,turns,by rw [hrest]; simp [stepBrackets,List.replicate_succ]⟩
      | stepEnd _ =>
        simp only [next,Option.ite_none_right_eq_some,Bool.and_eq_true] at hnext
        obtain ⟨⟨rfl,rfl⟩,hs1⟩ := hnext
        cases hs1
        cases hb
        obtain ⟨n,turns,hrest⟩ := hrest
        exact ⟨n,turns,by rw [hrest]; simp⟩
      | turnEnd =>
        simp only [next,Option.ite_none_right_eq_some,Bool.and_eq_true,Bool.not_eq_true'] at hnext
        obtain ⟨⟨rfl,rfl⟩,hs1⟩ := hnext
        cases hs1
        cases hb
        obtain ⟨turns,hrest⟩ := hrest
        exact ⟨0,turns,by rw [hrest]; simp [stepBrackets]⟩
      | _ => cases hb

end Scan

/-! The history that such a log projects to. -/

/-- What a record contributes to the history, at its place in the log. -/
def LogEvent.entry (seq : ℤ) : LogEvent → Entry
  | .userMessage m _ => .message m
  | .assistantMessage m => if m.content = [] then .neutral else .message m
  | .toolResult d => .result seq d
  | .toolResultCompacted c => .compaction c
  | _ => .neutral

/-- The records of a log after n others. -/
def transcript (n : ℕ) : List LogEvent → List Entry
  | [] => []
  | e :: log => e.entry (n+1) :: transcript (n+1) log

/-- The history that the log projects to. -/
def history (log : List LogEvent) : List Message := (project (transcript 0 log)).toHistory.derived

@[simp] lemma transcript_append (n : ℕ) (log log' : List LogEvent) :
    transcript n (log ++ log') = transcript n log ++ transcript (n+log.length) log' := by
  induction log generalizing n with
  | nil => rfl
  | cons e log ih =>
    change e.entry (n+1) :: transcript (n+1) (log ++ log') = _
    rw [ih,List.length_cons,Nat.add_assoc,Nat.add_comm 1]
    rfl

/-- The results up to the next message, as they are grouped. -/
def resultBlocks (l : Ledger) : List Entry → List ContentBlock
  | [] => []
  | .message _ :: _ => []
  | .result seq d :: xs => .toolResult d.toolCallID
    (l.resultContent seq d) d.isError :: resultBlocks l xs
  | .neutral :: xs => resultBlocks l xs
  | .compaction _ :: xs => resultBlocks l xs

/-- Results that are grouped, if there are any, are one message. -/
def group (blocks : List ContentBlock) : List Message :=
  if blocks = [] then [] else [⟨.user,blocks,none⟩]

lemma derived_eq_group (h : History) : h.derived = h.messages ++ group h.pending := by
  unfold History.derived group
  split_ifs <;> simp

lemma addMessage_pending (h : History) (m : Message) : (h.addMessage m).pending = [] := by
  unfold History.addMessage History.flushPending
  split_ifs with hp
  · exact hp
  · rfl

/-- A history goes on with the results up to the next message as one group. -/
lemma derived_foldl_record (l : Ledger) (xs : List Entry) (h : History) : ∃ rest,
    (xs.foldl (History.record l) h).derived = h.messages ++
    group (h.pending ++ resultBlocks l xs) ++ rest := by
  induction xs generalizing h with
  | nil => exact ⟨[],by simp [derived_eq_group,resultBlocks]⟩
  | cons x xs ih =>
    obtain ⟨rest,hrest⟩ := ih (h.record l x)
    rw [List.foldl_cons,hrest]
    cases x with
    | neutral => exact ⟨rest,rfl⟩
    | compaction c => exact ⟨rest,rfl⟩
    | result seq d =>
      refine ⟨rest,?_⟩
      simp [History.record,History.addResult,resultBlocks]
    | message m =>
      refine ⟨[m] ++ group (resultBlocks l xs) ++ rest,?_⟩
      have hmessages : (h.addMessage m).messages = h.messages ++ group h.pending ++ [m] := by
        rw [← derived_eq_group,History.derived_eq_flushPending]
        rfl
      simp [History.record,resultBlocks,hmessages,addMessage_pending]

lemma resultIDs_group (blocks : List ContentBlock) : Log.resultIDs (group blocks) =
    blocks.filterMap (fun b => match b with | .toolResult id _ _ => some id | _ => none) := by
  unfold group Log.resultIDs
  split_ifs with hb
  · rw [hb]
    rfl
  · exact List.flatMap_singleton _ _

/-- The results grouped after a record answer the calls that await one there. -/
lemma Scan.resultIDs_perm (l : Ledger) {s s' : Scan} {log : List LogEvent} (n : ℕ)
    (h : s.through log = some s')
    (hs' : s'.awaiting = []) :
    (Log.resultIDs (group (resultBlocks l (transcript n log)))).Perm s.awaiting := by
  rw [resultIDs_group]
  induction log generalizing n s with
  | nil =>
    cases h
    rw [hs']
    rfl
  | cons e log ih =>
    rw [through_cons,Option.bind_eq_some_iff] at h
    obtain ⟨s1,hnext,h⟩ := h
    have hrest := ih (n+1) h
    cases e with
    | userMessage m origin =>
      simp only [next,Option.ite_none_right_eq_some] at hnext
      rw [hnext.1]
      rfl
    | assistantMessage m =>
      simp only [next,Option.ite_none_right_eq_some,Option.some.injEq] at hnext
      obtain ⟨hnone,rfl⟩ := hnext
      rw [hnone,transcript,LogEvent.entry]
      by_cases hm : m.content = []
      · have hcalls : callIDs m = [] := by simp [callIDs,toolCalls,hm]
        rw [if_pos hm]
        rw [hcalls] at hrest
        exact hrest
      · rw [if_neg hm]
        rfl
    | toolResult d =>
      simp only [next,Option.ite_none_right_eq_some,Option.some.injEq] at hnext
      obtain ⟨hmem,rfl⟩ := hnext
      exact (hrest.cons d.toolCallID).trans (List.perm_cons_erase hmem).symm
    | _ =>
      rw [next_awaiting hnext rfl rfl] at hrest
      exact hrest

/-- In a history, the results of a message that has calls come right after it. -/
lemma history_message (before : List LogEvent) {m : Message} {after log : List LogEvent}
    {s s' : Scan}
    (hlog : log = before ++ .assistantMessage m :: after) (hcontent : m.content ≠ [])
    (hcalls : s.awaiting ≠ []) (h : s.through after = some s') (hs' : s'.awaiting = []) :
    ∃ earlier results later, history log = earlier ++ [m,results] ++ later ∧
      (Log.resultIDs [results]).Perm s.awaiting := by
  have hsplit : transcript 0 log =
      transcript 0 before ++ .message m :: transcript (0+before.length+1) after := by
    rw [hlog,transcript_append,transcript,LogEvent.entry,if_neg hcontent]
  have hhistory : history log =
      ((transcript 0 log).foldl
        (History.record (ledgerOf (transcript 0 log))) History.zero).derived := rfl
  generalize ledgerOf (transcript 0 log) = l at hhistory
  have hperm := Scan.resultIDs_perm l (0+before.length+1) h hs'
  obtain ⟨later,hlater⟩ := derived_foldl_record l (transcript (0+before.length+1) after)
    (((transcript 0 before).foldl (History.record l) History.zero).addMessage m)
  rw [addMessage_pending,List.nil_append] at hlater
  rw [hsplit,List.foldl_append,List.foldl_cons] at hhistory
  by_cases hblocks : resultBlocks l (transcript (0+before.length+1) after) = []
  · rw [hblocks] at hperm
    exact absurd hperm.nil_eq.symm hcalls
  · rw [group,if_neg hblocks] at hperm hlater
    refine ⟨((transcript 0 before).foldl (History.record l) History.zero).flushPending.messages,_,
      later,?_,hperm⟩
    rw [hhistory]
    refine hlater.trans ?_
    rw [History.addMessage,List.append_assoc _ [m]]
    rfl

namespace Loop

/-- However the turns of a driver were left, as long as the log took their closings: the results
after each message that a turn recorded answer its calls, each once, and so they do in the history
that the log projects to. Turns and steps are balanced, with the steps in their turns. -/
theorem rested_answered {cfg : Config} {held : List LogEvent} {l : Loop} (h : Rested cfg held l) :
    ∃ new, l.log = held ++ new ∧
      (∀ before m after, new = before ++ .assistantMessage m :: after →
        (answered after).Perm (callIDs m)) ∧
      (∀ before m after, new = before ++ .assistantMessage m :: after → callIDs m ≠ [] →
        ∃ earlier results later, history l.log = earlier ++ [m,results] ++ later ∧
          (Log.resultIDs [results]).Perm (callIDs m)) ∧
      ∃ turns, new.filterMap LogEvent.bracket = turnBrackets turns := by
  obtain ⟨⟨new,hlog⟩,hstands⟩ := h.scanned
  have hscan : Scan.closed.through new = some Scan.closed := by
    have hscanned := hstands.scanned
    unfold View.Scanned at hscanned
    rw [hstands.openCalls,hstands.turnOpen,hstands.stepOpen] at hscanned
    have hmarks : (l.view held).marks = new.filter LogEvent.isMark := by simp [view,← hlog]
    rwa [hmarks,Scan.through_filter_isMark] at hscanned
  have hafter : ∀ before m after, new = before ++ .assistantMessage m :: after →
      ∃ s : Scan, s.awaiting = callIDs m ∧ s.through after = some Scan.closed := by
    intro before m after hnew
    rw [hnew,Scan.through_append,Option.bind_eq_some_iff] at hscan
    obtain ⟨s,_,hs⟩ := hscan
    rw [Scan.through_cons,Option.bind_eq_some_iff] at hs
    obtain ⟨s1,hnext,hs1⟩ := hs
    simp only [Scan.next,Option.ite_none_right_eq_some,Option.some.injEq] at hnext
    exact ⟨s1,by rw [← hnext.2],hs1⟩
  refine ⟨new,hlog.symm,?_,?_,?_⟩
  · intro before m after hnew
    obtain ⟨s,hids,hs⟩ := hafter before m after hnew
    rw [← hids]
    exact Scan.answered_perm hs rfl
  · intro before m after hnew hcalls
    obtain ⟨s,hids,hs⟩ := hafter before m after hnew
    rw [← hids]
    have hcontent : m.content ≠ [] := by
      intro hempty
      exact hcalls (by simp [callIDs,toolCalls,hempty])
    refine history_message (held ++ before) ?_ hcontent ?_ hs rfl
    · rw [← hlog,hnew,List.append_assoc]
    · rw [hids]
      exact hcalls
  · exact Scan.closes_brackets hscan rfl rfl

/-- A response that makes two calls under one id. -/
def twoCalls : Response :=
  ⟨⟨.assistant,[.toolCall "c1" "read" [],.toolCall "c1" "read" []],none⟩,⟨3,2,0,0,0⟩,false,0,
    true,[]⟩

/-- An outside whose first tool panics. -/
def panickingTool : World := { quietWorld twoCalls 5 with runs := fun _ => none }

/-- A turn that a panic leaves with both calls open: both are answered. -/
theorem rested_answered_panickingTool :
    (run panickingTool sampleConfig (textMessage "go") (newOver sampleConfig [])).1 =
    some .panicked ∧
    ∃ new, (run panickingTool sampleConfig (textMessage "go") (newOver sampleConfig [])).2.log =
    [] ++ new ∧
      (∀ before m after, new = before ++ .assistantMessage m :: after →
        (answered after).Perm (callIDs m)) ∧
      (∀ before m after, new = before ++ .assistantMessage m :: after → callIDs m ≠ [] →
        ∃ earlier results later,
          history (run panickingTool sampleConfig (textMessage "go")
            (newOver sampleConfig [])).2.log =
            earlier ++ [m,results] ++ later ∧ (Log.resultIDs [results]).Perm (callIDs m)) ∧
      ∃ turns, new.filterMap LogEvent.bracket = turnBrackets turns := by
  have haccepts : ¬ panickingTool.closing.Refuses := by
    rintro ⟨_,h⟩
    cases h
  exact ⟨by decide +kernel,rested_answered (.turn panickingTool (textMessage "go") haccepts .new)⟩

end Loop

end Manvi.Agent
