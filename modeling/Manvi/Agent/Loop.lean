import Manvi.Encoding.Space
import Manvi.Program.Triple
import Manvi.Session.Transcript

/-! The turn and step driver: what one turn does to the log and to its outcome, for whatever the
provider, the listeners, the tools and the log answer. -/
namespace Manvi.Agent
open Manvi.Encoding Manvi.LLM Manvi.Session Manvi.Program

/-- Tokens of one response. -/
structure Usage where
  inputTokens : ℤ
  outputTokens : ℤ
  reasoningTokens : ℤ
  cacheReadTokens : ℤ
  cacheWriteTokens : ℤ
  deriving Repr, DecidableEq

def Usage.zero : Usage := ⟨0,0,0,0,0⟩

def Usage.add (a b : Usage) : Usage :=
  ⟨a.inputTokens+b.inputTokens,a.outputTokens+b.outputTokens,a.reasoningTokens+b.reasoningTokens,
    a.cacheReadTokens+b.cacheReadTokens,a.cacheWriteTokens+b.cacheWriteTokens⟩

/-- What a step spent. -/
structure StepEndData where
  usage : Usage
  costNanoUSD : ℤ
  priced : Bool
  noResponse : Bool
  deriving Repr, DecidableEq

def StepEndData.zero : StepEndData := ⟨Usage.zero,0,false,false⟩

/-- Records that neither shape the history nor delimit it. -/
inductive Note where
  | assistantChunk
  | toolCall (id : CallID)
  | policyDenied (id : CallID)
  | policyQualified (id : CallID)
  | grantApplied (grantID : String)
  | provenanceDropped
  | contextOverflow
  | malformedToolCall (id : CallID)
  | decodingCompensated
  | nullResponseRetried (step attempt : ℕ)
  | verifyReport (bounce : ℕ)
  deriving Repr, DecidableEq

/-- One record of the log with its payload. -/
inductive LogEvent where
  | turnStart
  | turnEnd
  | stepStart
  | stepEnd (spent : StepEndData)
  | systemPrompt (text : String)
  | userMessage (message : Message) (origin : String)
  | assistantMessage (message : Message)
  | toolResult (result : ToolResultData)
  | toolResultCompacted (record : CompactionData)
  | note (n : Note)

structure ToolCall where
  id : CallID
  name : String
  arguments : RawMessage
  deriving Repr, DecidableEq

/-- The tool calls of a message. -/
def toolCalls (m : Message) : List ToolCall :=
  m.content.filterMap (fun b => match b with
    | .toolCall id name arguments => some ⟨id,name,arguments⟩
    | _ => none)

def messageText (m : Message) : String :=
  String.join (m.content.filterMap (fun b => match b with | .text t => some t | _ => none))

def trimSpace (text : String) : String := String.ofList (Runes.trimSpace text.toList)

structure MalformedCall where
  id : CallID
  name : String
  reason : String
  deriving Repr, DecidableEq

structure Response where
  message : Message
  usage : Usage
  stopMaxTokens : Bool
  maxTokensApplied : ℤ
  decodingClean : Bool
  malformed : List MalformedCall

/-- What a tool came back with. -/
structure ToolRun where
  text : String
  content : List ContentBlock
  isError : Bool
  blocked : Bool
  pipelinePanic : Bool
  demoted : String
  widened : String
  degraded : List String
  grantID : String
  wrote : List String

def ToolRun.qualified (r : ToolRun) : Bool :=
  r.grantID ≠ "" || r.demoted ≠ "" || r.widened ≠ "" || r.degraded ≠ []

/-- An error result of the loop's own. -/
def refusal (text : String) : ToolRun := ⟨text,[],true,false,false,"","",[],"",[]⟩

/-- How a turn is left early. -/
inductive Exit where
  | failed
  | panicked
  | outOfFuel
  deriving Repr, DecidableEq

/-- A call out of the loop that does not come back with a value. -/
inductive Failure where
  | failed
  | panicked
  deriving Repr, DecidableEq

def Failure.exit : Failure → Exit
  | .failed => .failed
  | .panicked => .panicked

/-- What a listener, or any other call out of the loop, comes back with. -/
inductive Answer where
  | ok
  | failed
  | panicked
  deriving Repr, DecidableEq

/-- The stages before a step: what compaction records, and how they end. -/
structure PreStep where
  compactions : List CompactionData
  overflow : Bool
  ends : Answer
  deriving Repr, DecidableEq

/-- A response stream: the chunks that arrive, then an error, a panic or a response. -/
structure Stream where
  chunks : ℕ
  ends : Except Failure Response

/-- What the terminal checkpoint comes back with. -/
structure Checkpoint where
  ends : Answer
  verdict : String
  inject : String
  deriving Repr, DecidableEq

/-- Everything outside the loop, as what it answers when it is asked for the n-th time. -/
structure World where
  accepts : ℕ → Bool
  acceptsClosing : ℕ → Bool
  turnStarting : ℕ → Answer
  derives : ℕ → Answer
  preStep : ℕ → PreStep
  drops : ℕ → Bool
  assembles : ℕ → Answer
  streams : ℕ → Stream
  charges : ℕ → Usage → Except Failure ℤ
  dispatching : ℕ → Answer
  allows : ℕ → Bool
  runs : ℕ → Option ToolRun
  cancelled : ℕ → Bool
  checkpoint : ℕ → Checkpoint
  turnEnded : ℕ → Answer

/-- The outside as the deferred closing finds it. -/
def World.closing (w : World) : World := { w with accepts := w.acceptsClosing }

structure Config where
  maxSteps : ℕ
  systemPrompt : String
  effort : String
  nextEffort : String → Option String
  effectiveMaxTokens : ℤ
  priced : Bool
  mutating : String → Bool
  resultDigest : String → ToolRun → List UInt8
  refusalText : ToolCall → ℕ → String
  malformedText : Response → String

/-- What a turn amounted to. -/
structure Outcome where
  steps : ℕ := 0
  usage : Usage := Usage.zero
  costNanoUSD : ℤ := 0
  unpricedSteps : ℕ := 0
  toolCalls : ℕ := 0
  denied : ℕ := 0
  qualified : ℕ := 0
  repeated : ℕ := 0
  stalled : ℕ := 0
  noProgressSteps : ℕ := 0
  budgetSpent : ℕ := 0
  truncatedBySteps : Bool := false
  truncatedByTokens : Bool := false
  finalTruncated : Bool := false
  finalEmpty : Bool := false
  contextOverflowed : Bool := false
  panicked : ℕ := 0
  malformed : ℕ := 0
  effortTo : String := ""
  effortRaised : ℕ := 0
  mutated : Bool := false
  unenumeratedEffects : Bool := false
  sensor : String := ""
  bounces : ℕ := 0
  bouncesExhausted : Bool := false
  deriving Repr, DecidableEq

/-- The driver. The tick counts the questions put to the outside, and requests those sent to the
provider in this turn. -/
structure Loop where
  tick : ℕ
  log : List LogEvent
  turnOpen : Bool
  stepOpen : Bool
  openCalls : List CallID
  announced : Bool
  spent : StepEndData
  overflowed : Bool
  effort : String
  repeats : List (String × RawMessage)
  seen : List (List UInt8)
  streak : ℕ
  nullRetries : ℕ
  requests : ℕ
  out : Outcome

def newLoop (cfg : Config) : Loop :=
  ⟨0,[],false,false,[],false,StepEndData.zero,false,cfg.effort,[],[],0,0,0,{}⟩

def stallCost : ℕ := 3

def noProgressLimit : ℕ := 3

def repeatLimit : ℕ := 3

def maxNullRetries : ℕ := 3

def maxCheckpointBounces : ℕ := 2

def maxInt64 : ℤ := 2^63-1

def originHarness : String := "harness"

def unwoundCallText : String :=
  "interrupted: the turn ended before this call returned a result, " ++
  "so it may not have run, or may have run in part"

/-- What one step's tool calls amounted to. -/
structure StepTally where
  ran : ℕ := 0
  progressed : Bool := false
  circling : Bool := false
  deriving Repr, DecidableEq

namespace Loop

abbrev Step := Prog Loop Exit

/-- Put a question to the outside. -/
def ask {α : Type} (f : ℕ → α) : Step α := fun l => (.ok (f l.tick),{ l with tick := l.tick+1 })

def setOut (f : Outcome → Outcome) : Step Unit := Prog.modify (fun l => { l with out := f l.out })

/-- Go on, or leave as the outside did. -/
def heed : Answer → Step Unit
  | .ok => pure ()
  | .failed => Prog.exit .failed
  | .panicked => Prog.exit .panicked

section
variable (w : World) (cfg : Config)

/-- Record an event, unless the log refuses it. -/
def append (e : LogEvent) : Step Unit := do
  if ← ask w.accepts then Prog.modify (fun l => { l with log := l.log ++ [e] })
  else Prog.exit .failed

def endStep : Step Unit := do
  let spent ← Prog.read Loop.spent
  Prog.modify (fun l => { l with spent := StepEndData.zero })
  append w (.stepEnd spent)
  Prog.modify (fun l => { l with stepOpen := false })

def endTurn : Step Unit := do
  append w .turnEnd
  Prog.modify (fun l => { l with turnOpen := false })

/-- The system prompt that the log holds last. -/
def lastSystemPrompt (log : List LogEvent) : String :=
  log.foldl (fun cur e => match e with | .systemPrompt text => text | _ => cur) ""

/-- Reset what belongs to one turn, open it in the log and record its prompt. -/
def openTurn (prompt : Message) : Step Unit := do
  Prog.modify (fun l => { l with
    repeats := [], seen := [], streak := 0, overflowed := false, openCalls := [] })
  append w .turnStart
  Prog.modify (fun l => { l with turnOpen := true, announced := true })
  heed (← ask w.turnStarting)
  let held ← Prog.read (fun l => lastSystemPrompt l.log)
  Prog.when (cfg.systemPrompt ≠ "" ∧
    held ≠ cfg.systemPrompt) (append w (.systemPrompt cfg.systemPrompt))
  append w (.userMessage prompt "")
  Prog.modify (fun l => { l with effort := cfg.effort })

/-- Project the history, run the stages before a step and open it in the log. -/
def enterStep : Step Unit := do
  heed (← ask w.derives)
  let pre ← ask w.preStep
  Prog.each (fun c => append w (.toolResultCompacted c)) pre.compactions
  Prog.when pre.overflow do
    Prog.modify (fun l => { l with overflowed := true })
    append w (.note .contextOverflow)
  heed pre.ends
  append w .stepStart
  Prog.modify (fun l => { l with
    spent := { StepEndData.zero with noResponse := true }, stepOpen := true })

def assembleRequest : Step Unit := do
  Prog.when (← ask w.drops) (append w (.note .provenanceDropped))
  heed (← ask w.assembles)

/-- Send the request, record its chunks and then the message that they made. -/
def streamResponse : Step Response := do
  Prog.modify (fun l => { l with requests := l.requests+1 })
  let stream ← ask w.streams
  Prog.each (fun _ => append w (.note .assistantChunk)) (List.range stream.chunks)
  match stream.ends with
  | .error e => Prog.exit e.exit
  | .ok response => do
    append w (.assistantMessage response.message)
    Prog.modify (fun l => { l with openCalls := (toolCalls response.message).map ToolCall.id })
    return response

/-- Add a step's charge to the outcome, or count the step as unpriced. -/
def price (usage : Usage) : Step (ℤ × Bool) := do
  let unpriced : Step (ℤ × Bool) := do
    setOut (fun out => { out with unpricedSteps := out.unpricedSteps+1 })
    return (0,false)
  if !cfg.priced then unpriced
  else
    match (← ask w.charges) usage with
    | .error .panicked => Prog.exit .panicked
    | .error .failed => unpriced
    | .ok charge => do
      let cost ← Prog.read (fun l => l.out.costNanoUSD)
      if charge < 0 ∨ cost > maxInt64-charge then unpriced
      else
        setOut (fun out => { out with costNanoUSD := out.costNanoUSD+charge })
        return (charge,true)

/-- Whether a response ran to the end of the output budget. -/
def hitOutputCap (response : Response) : Bool :=
  let budget := if response.maxTokensApplied ≤ 0 then cfg.effectiveMaxTokens
    else response.maxTokensApplied
  response.stopMaxTokens || (budget > 0 && response.usage.outputTokens ≥ budget)

/-- Fold a response into the outcome. -/
def absorbResponse (step : ℕ) (response : Response) : Step Unit := do
  setOut (fun out => { out with steps := step, usage := out.usage.add response.usage })
  let (charge,priced) ← price w cfg response.usage
  Prog.modify (fun l => { l with spent := ⟨response.usage,charge,priced,false⟩ })
  Prog.when (!response.decodingClean) (append w (.note .decodingCompensated))
  Prog.when (hitOutputCap cfg response) (setOut (fun out => { out with truncatedByTokens := true }))

def isNullResponse (r : Response) : Bool :=
  r.message.content.isEmpty && r.usage.outputTokens = 0 && r.usage.reasoningTokens = 0

/-- Charge and record a retry of a response that carried nothing, and close its step. -/
def retryNullResponse (step attempt : ℕ) : Step Unit := do
  setOut (fun out => { out with budgetSpent := out.budgetSpent+1 })
  append w (.note (.nullResponseRetried step attempt))
  endStep w

/-- Note what a call that ran came back with; whether it is progress. -/
def observe (call : ToolCall) (result : ToolRun) : Step Bool := do
  let key := cfg.resultDigest call.name result
  let repeated ← Prog.read (fun l => l.seen.contains key)
  Prog.modify (fun l => { l with seen := key :: l.seen })
  return !repeated || (cfg.mutating call.name && !result.isError && !result.blocked)

/-- Run one call, or refuse it because the turn is going in circles. -/
def runCall (tally : StepTally) (call : ToolCall) : Step (ToolRun × StepTally) := do
  Prog.modify (fun l => { l with repeats := (call.name,call.arguments) :: l.repeats })
  let times ← Prog.read (fun l => l.repeats.count (call.name,call.arguments))
  let stalled ← Prog.read (fun l => decide (l.streak ≥ noProgressLimit))
  if !(← ask w.allows) then
    return (refusal (cfg.refusalText call times),
      if times > 1 then { tally with circling := true } else tally)
  else if times > repeatLimit then
    setOut (fun out => { out with repeated := out.repeated+1 })
    return (refusal (cfg.refusalText call times),{ tally with circling := true })
  else if stalled then
    setOut (fun out => { out with stalled := out.stalled+1 })
    Prog.modify (fun l => { l with streak := 0 })
    return (refusal (cfg.refusalText call times),{ tally with circling := true })
  else
    match ← ask w.runs with
    | none => Prog.exit .panicked
    | some result => do
      let progressed ← observe cfg call result
      Prog.when (cfg.mutating call.name && !result.blocked &&
        (!result.isError || result.wrote ≠ []))
        (setOut (fun out => { out with
          mutated := true, unenumeratedEffects := out.unenumeratedEffects || result.wrote = [] }))
      return (result,{ tally with
        ran := tally.ran+1, progressed := tally.progressed || progressed })

/-- Record what the gate made of a call. -/
def recordGate (call : ToolCall) (result : ToolRun) : Step Unit :=
  if result.pipelinePanic then do
    setOut (fun out => { out with panicked := out.panicked+1 })
    append w (.note (.policyQualified call.id))
  else if result.blocked then do
    setOut (fun out => { out with denied := out.denied+1 })
    append w (.note (.policyDenied call.id))
  else if result.qualified then do
    setOut (fun out => { out with qualified := out.qualified+1 })
    append w (.note (.policyQualified call.id))
  else return ()

/-- Record what the gate made of a call, any grant, and the result. -/
def recordCall (call : ToolCall) (result : ToolRun) : Step Unit := do
  recordGate w call result
  Prog.when (result.grantID ≠ "") (append w (.note (.grantApplied result.grantID)))
  append w (.toolResult ⟨call.id,result.text,result.content,result.isError⟩)
  Prog.modify (fun l => { l with openCalls := l.openCalls.erase call.id })

/-- Run a response's calls in order. -/
def dispatchCalls : List ToolCall → StepTally → Step StepTally
  | [],tally => return tally
  | call :: calls,tally => do
    append w (.note (.toolCall call.id))
    let (result,tally) ← runCall w cfg tally call
    setOut (fun out => { out with toolCalls := out.toolCalls+1 })
    recordCall w call result
    dispatchCalls calls tally

/-- What a finished step costs, whether it ran work and got nowhere, and the streak after it. -/
def stepCost (calls : ℕ) (tally : StepTally) (streak : ℕ) : ℕ × Bool × ℕ :=
  if calls = 0 then (1,false,streak)
  else if tally.ran = 0 then (stallCost,false,streak)
  else if tally.progressed then (1,false,0)
  else (stallCost,true,streak+1)

/-- Spend a step's cost, and raise the effort of a turn that goes in circles. -/
def chargeStep (calls : ℕ) (tally : StepTally) : Step Unit := do
  let cost ← Prog.read (fun l => stepCost calls tally l.streak)
  Prog.modify (fun l => { l with streak := cost.2.2 })
  setOut (fun out => { out with
    budgetSpent := out.budgetSpent+cost.1, noProgressSteps := out.noProgressSteps+cost.2.1.toNat })
  Prog.when (tally.circling && !tally.progressed) do
    match cfg.nextEffort (← Prog.read Loop.effort) with
    | none => return ()
    | some next => do
      Prog.modify (fun l => { l with effort := next })
      setOut (fun out => { out with effortTo := next, effortRaised := out.effortRaised+1 })

def textMessage (text : String) : Message := ⟨.user,[.text text],none⟩

/-- Tell the model about the calls that could not be read. -/
def reportMalformed (response : Response) : Step Unit := do
  Prog.each (fun m => append w (.note (.malformedToolCall m.id))) response.malformed
  append w (.userMessage (textMessage (cfg.malformedText response)) "")

/-- End the turn at a response without calls, or take another step when the checkpoint asks for
one. -/
def closeOrBounce (response : Response) : Step Bool := do
  setOut (fun out => { out with
    finalTruncated := hitOutputCap cfg response
    finalEmpty := trimSpace (messageText response.message) = "" })
  if ← ask w.cancelled then return true
  else
    let checkpoint ← ask w.checkpoint
    match checkpoint.ends with
    | .panicked => Prog.exit .panicked
    | .failed => do
      setOut (fun out => { out with sensor := "degraded" })
      let bounces ← Prog.read (fun l => l.out.bounces)
      append w (.note (.verifyReport bounces))
      return true
    | .ok => do
      Prog.when (checkpoint.verdict ≠ "") (setOut (fun out => { out with
        sensor := checkpoint.verdict }))
      if trimSpace checkpoint.inject = "" then return true
      else if ← ask w.cancelled then return true
      else
        let bounces ← Prog.read (fun l => l.out.bounces)
        if bounces ≥ maxCheckpointBounces then
          setOut (fun out => { out with bouncesExhausted := true })
          return true
        else
          append w (.userMessage (textMessage (trimSpace checkpoint.inject)) originHarness)
          setOut (fun out => { out with bounces := out.bounces+1 })
          return false

/-- What a step does once its response is not asked for again. -/
def settleStep (response : Response) : Step Bool := do
  let calls := toolCalls response.message
  Prog.when (calls ≠ []) (do heed (← ask w.dispatching))
  let tally ← dispatchCalls w cfg calls {}
  chargeStep cfg calls.length tally
  if response.malformed ≠ [] then
    setOut (fun out => { out with malformed := out.malformed+response.malformed.length })
    reportMalformed w cfg response
    endStep w
    return false
  else
    endStep w
    if calls = [] then closeOrBounce w cfg response else return false

/-- One round of the loop; whether it leaves the loop. -/
def iterate (step : ℕ) : Step Bool := do
  let spent ← Prog.read (fun l => l.out.budgetSpent)
  if spent ≥ cfg.maxSteps then
    setOut (fun out => { out with truncatedBySteps := true })
    return true
  else
    setOut (fun out => { out with finalTruncated := false, finalEmpty := false })
    enterStep w
    assembleRequest w
    let response ← streamResponse w
    absorbResponse w cfg step response
    let retries ← Prog.read Loop.nullRetries
    if isNullResponse response ∧ retries < maxNullRetries then
      Prog.modify (fun l => { l with nullRetries := retries+1 })
      retryNullResponse w step (retries+1)
      return false
    else settleStep w cfg response

/-- Rounds of the loop, from a step on. -/
def rounds : ℕ → ℕ → Step Unit
  | 0,_ => Prog.exit .outOfFuel
  | fuel+1,step => do
    if ← iterate w cfg step then return () else rounds fuel (step+1)

/-- A turn up to its deferred closing. -/
def turn (prompt : Message) : Step Unit := do
  Prog.modify (fun l => { l with out := {}, nullRetries := 0, requests := 0 })
  openTurn w cfg prompt
  setOut (fun out => { out with effortTo := cfg.effort })
  rounds w cfg (cfg.maxSteps+1) 1
  Prog.modify (fun l => { l with out := { l.out with contextOverflowed := l.overflowed } })
  endTurn w

/-- Publish the end of a turn whose start was published. What its listeners say is dropped. -/
def announceTurnEnd : Step Unit := do
  Prog.when (← Prog.read Loop.announced) do
    Prog.modify (fun l => { l with announced := false })
    match ← ask w.turnEnded with
    | .panicked => Prog.exit .panicked
    | _ => return ()

/-- Answer the calls that the turn left open, up to the first that the log refuses. -/
def answerCalls : List CallID → Step Unit
  | [] => return ()
  | id :: ids => do
    append w (.toolResult ⟨id,unwoundCallText,[],true⟩)
    Prog.modify (fun l => { l with openCalls := ids })
    answerCalls ids

def answerOpenCalls : Step Unit := do answerCalls w (← Prog.read Loop.openCalls)

/-- End whatever step and turn were left open, as far as the log takes it. -/
def closeOpenBoundaries (l : Loop) : Loop :=
  let l := (answerOpenCalls w.closing l).2
  let l := if l.stepOpen then (endStep w.closing l).2 else l
  if l.turnOpen then (endTurn w.closing l).2 else l

/-- How a program was left, if it was left early. -/
def leftBy : Except Exit Unit → Option Exit
  | .ok _ => none
  | .error e => some e

/-- Drive one turn: how it was left early, if it was, and the driver with its outcome afterwards. A
panic of the announcement takes the place of how the turn was left. -/
def run (prompt : Message) (l : Loop) : Option Exit × Loop :=
  let turned := turn w cfg prompt l
  let announced := announceTurnEnd w turned.2
  (match announced.1 with | .error e => some e | .ok _ => leftBy turned.1,
    closeOpenBoundaries w announced.2)

end

end Loop

end Manvi.Agent
