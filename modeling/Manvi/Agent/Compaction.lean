import Manvi.Session.Projection

/-! Planning and recording compactions of tool results. Two things outside the repository are
parameters: the floating point scale of a calibrated estimate, and the reading of an image's
size from its bytes. -/
namespace Manvi.Agent
open Manvi.Encoding Manvi.LLM Manvi.Session

/-! Token estimates. -/

/-- The bytes of a text. -/
def bytes (text : String) : List UInt8 := text.toUTF8.data.toList

def size (text : String) : ℕ := text.utf8ByteSize

/-- The running state of the estimator. -/
structure TokenScan where
  tokens : ℕ
  inWord : Bool
  spaceRun : ℕ
  runLen : ℕ
  prev : Option UInt8

def isUpper (b : UInt8) : Bool := 'A'.toNat ≤ b.toNat && b.toNat ≤ 'Z'.toNat

def isLower (b : UInt8) : Bool := 'a'.toNat ≤ b.toNat && b.toNat ≤ 'z'.toNat

def isAlpha (b : UInt8) : Bool :=
  isLower b || isUpper b || ('0'.toNat ≤ b.toNat && b.toNat ≤ '9'.toNat) || b.toNat == '_'.toNat

def TokenScan.step (s : TokenScan) (b : UInt8) : TokenScan :=
  if b.toNat = ' '.toNat then
    if s.spaceRun+1 = 4 then ⟨s.tokens+1,false,0,s.runLen,some b⟩
    else ⟨s.tokens,false,s.spaceRun+1,s.runLen,some b⟩
  else if b.toNat = '\t'.toNat ∨ b.toNat = '\n'.toNat then ⟨s.tokens+1,false,0,s.runLen,some b⟩
  else if isAlpha b then
    if s.inWord then
      let long := if (s.runLen+1)%8 = 0 then 1 else 0
      let camel := if isUpper b ∧ s.prev.any isLower then 1 else 0
      ⟨s.tokens+long+camel,true,0,s.runLen+1,some b⟩
    else ⟨s.tokens+1,true,0,1,some b⟩
  else ⟨s.tokens+1,false,0,s.runLen,some b⟩

/-- An estimate of how many tokens a text costs. -/
def estimateTokens (text : String) : ℕ :=
  if text = "" then 0 else max ((bytes text).foldl TokenScan.step ⟨0,false,0,0,none⟩).tokens 1

/-- A tool as it is offered to a model. -/
structure ToolSchema where
  name : String
  description : String
  inputSchema : String

def maxImageTokens : ℕ := 4784

def imagePatch : ℕ := 28

/-- What one image costs, from the size its header declares. -/
def imageTokens (imageSize : List UInt8 → Option (ℕ × ℕ)) (data : List UInt8) : ℕ :=
  match imageSize data with
  | none => maxImageTokens
  | some (width,height) =>
    if width = 0 ∨ height = 0 then maxImageTokens
    else
      let w := (width+imagePatch-1)/imagePatch
      let h := (height+imagePatch-1)/imagePatch
      if w > maxImageTokens/h then maxImageTokens else min (w*h) maxImageTokens

def countToolTokens (tools : List ToolSchema) : ℕ :=
  (tools.map (fun t => estimateTokens t.name+estimateTokens t.description+
    estimateTokens t.inputSchema+8)).sum

section counting
variable (imageSize : List UInt8 → Option (ℕ × ℕ))

/-- What the content of a tool result costs; only text and images are counted. -/
def countInner : ContentBlock → ℕ
  | .text text => estimateTokens text
  | .image _ data => imageTokens imageSize data
  | _ => 0

def countBlock : ContentBlock → ℕ
  | .text text => estimateTokens text
  | .reasoning text _ _ => estimateTokens text
  | .image _ data => imageTokens imageSize data
  | .toolResult _ content _ => (content.map (countInner imageSize)).sum+8
  | .toolCall _ name arguments => estimateTokens name+estimateTokens (String.ofList arguments)+12

def countMessageBlocks (m : Message) : ℕ := (m.content.map (countBlock imageSize)).sum+4

/-- An estimate of everything that goes out in one request. -/
def countRequestTokens (systemPrompt : String) (tools : List ToolSchema)
    (messages : List Message) : ℕ :=
  estimateTokens systemPrompt+countToolTokens tools+(messages.map
    (countMessageBlocks imageSize)).sum

end counting

/-! Shortening one text. -/

/-- The notice a shortened result carries. -/
def compactionMarker (n : ℕ) : String := s!"[{n} line(s) omitted to fit the context window]"

def imageRemovalMarker (n : ℕ) : String := s!"[{n} image(s) removed to fit the context window]"

def withImageNotice (text : String) (n : ℕ) : String :=
  if text = "" then imageRemovalMarker n else text ++ "\n" ++ imageRemovalMarker n

/-- The lines of a text, split at every line feed. -/
def splitLines : List Char → List (List Char)
  | [] => [[]]
  | c :: cs =>
    if c = '\n' then [] :: splitLines cs
    else match splitLines cs with
      | [] => [[c]]
      | line :: lines => (c :: line) :: lines

/-- The leading lines that fit in half the budget, each with its line feed. -/
def fitLines (half : ℤ) : ℤ → List String → List String
  | _,[] => []
  | used,ln :: rest =>
    if used+size ln+1 > half then [] else ln :: fitLines half (used+size ln+1) rest

/-- Keep the head and the tail of a text, line by line, when that helps. -/
def cutLines (text : String) (maxChars : ℤ) : Option String :=
  let lines := (splitLines text.toList).map String.ofList
  if lines.length < 8 then none
  else
    let half := (maxChars-size (compactionMarker lines.length)-1).tdiv 2
    let head := fitLines half 0 lines
    let tail := (fitLines half 0 (lines.drop head.length).reverse).reverse
    let omitted := lines.length-head.length-tail.length
    if 0 < omitted ∧ 0 < head.length+tail.length then
      let out := String.join (head.map (· ++ "\n")) ++ compactionMarker omitted ++ "\n" ++
        "\n".intercalate tail
      if size out < size text ∧ (size out : ℤ) ≤ maxChars then some out else none
    else none

/-- The most leading characters whose bytes fit. -/
def fitRunes (runes : List Char) (maxChars : ℤ) : ℕ → ℕ
  | 0 => 0
  | k+1 => if (size (String.ofList (runes.take (k+1))) : ℤ) > maxChars then
    fitRunes runes maxChars k else k+1

/-- Shorten one tool result to roughly maxChars bytes. -/
def compactToolResultText (text : String) (maxChars : ℤ) : String :=
  if maxChars ≤ 0 ∨ (size text : ℤ) ≤ maxChars then text
  else match cutLines text maxChars with
    | some out => out
    | none =>
      let runes := text.toList
      let keep := fitRunes runes maxChars (min maxChars.toNat runes.length)
      let out := String.ofList (runes.take keep) ++ "\n" ++ compactionMarker 0
      if size out ≥ size text then text else out

/-! The plan. -/

def protectedTail : ℕ := 6

def compactFloors : List ℤ := [1200,400,120]

/-- What a turn has to fit inside. -/
structure Budget where
  contextWindow : ℤ
  reservedOutput : ℤ
  overhead : ℤ

def Budget.threshold (b : Budget) : ℤ :=
  min (max (b.contextWindow-b.reservedOutput-b.overhead) 4096) (2^28)

def Budget.target (b : Budget) : ℤ := (b.threshold*7).tdiv 10

/-- One planned change: a tool result, and the text that replaces it. Occurrence zero names every
result with the call id. -/
structure CompactionStep where
  toolCallID : CallID
  occurrence : ℕ
  text : String
  fromBytes : ℤ
  toBytes : ℤ
  deriving Repr, DecidableEq

structure CompactionPlan where
  steps : List CompactionStep
  before : ℤ
  after : ℤ
  insufficient : Bool

/-- What a plan is made for: the request around the history, the window, and the estimator. -/
structure Planning where
  systemPrompt : String
  tools : List ToolSchema
  budget : Budget
  scale : ℤ → ℤ
  imageSize : List UInt8 → Option (ℕ × ℕ)

/-- A result that may be shortened. -/
structure Candidate where
  key : ResultKey
  text : String
  images : ℕ
  size : ℕ
  tokens : ℤ

namespace Planning
variable (p : Planning)

def estimate (text : String) : ℤ := p.scale (estimateTokens text)

/-- The text a candidate is replaced with at a floor. -/
def shortened (c : Candidate) (floor : ℤ) : String :=
  let short := compactToolResultText c.text floor
  if c.images > 0 then withImageNotice short c.images else short

/-- The tool results of a history, in order. -/
def toolResults (messages : List Message) : List (CallID × List ContentBlock) :=
  messages.flatMap (fun m => m.content.filterMap (fun b =>
    match b with | .toolResult id content _ => some (id,content) | _ => none))

/-- The candidate a result makes, unless it holds neither text nor an image. -/
def candidate (key : ResultKey) (content : List ContentBlock) : Option Candidate :=
  let text := String.join (content.filterMap
    (fun b => match b with | .text t => some t | _ => none))
  let images := content.filterMap (fun b => match b with | .image _ data => some data | _ => none)
  if text = "" ∧ images = [] then none
  else some ⟨key,text,images.length,Agent.size text+(images.map List.length).sum,
    p.estimate text+p.scale ((images.map (imageTokens p.imageSize)).sum : ℕ)⟩

/-- The results before the protected tail that no compaction names yet. -/
def eligible (messages : List Message) (already : List CallID) (done : List ResultKey) :
    List Candidate :=
  let exposed := messages.take (messages.length-protectedTail)
  (numbered Prod.fst [] (toolResults exposed)).filterMap (fun k =>
    if k.1.id ∈ already ∨ k.1 ∈ done then none else p.candidate k.1 k.2.2)

/-- Whether shortening a candidate is worth it. -/
def worthwhile (c : Candidate) (short : String) : Bool :=
  if c.images = 0 then Agent.size short < Agent.size c.text else c.tokens-p.estimate short > 0

/-- Shorten candidates in order until the need is met. -/
def takeSteps (floor need : ℤ) : ℤ → List Candidate → List CompactionStep × ℤ
  | saved,[] => ([],saved)
  | saved,c :: rest =>
    if saved ≥ need then ([],saved)
    else
      let short := shortened c floor
      if p.worthwhile c short then
        let r := takeSteps floor need (saved+(c.tokens-p.estimate short)) rest
        (⟨c.key.id,c.key.occurrence,short,c.size,Agent.size short⟩ :: r.1,r.2)
      else takeSteps floor need saved rest

/-- The widest floor that could cover the need, or the tightest one. -/
def chooseFloor (need : ℤ) (cs : List Candidate) : ℤ :=
  (compactFloors.find? (fun floor =>
    (cs.map (fun c => c.tokens-p.estimate (shortened c floor))).sum ≥ need)).getD 120

/-- Decide what to shorten. -/
def planCompactionCalibrated (messages : List Message) (already : List CallID)
    (done : List ResultKey) : CompactionPlan :=
  let before := p.scale (countRequestTokens p.imageSize p.systemPrompt p.tools messages)
  if before ≤ p.budget.threshold then ⟨[],before,before,false⟩
  else
    let cs := p.eligible messages already done
    if cs.isEmpty then ⟨[],before,before,true⟩
    else
      let need := before-p.budget.target
      let r := p.takeSteps (p.chooseFloor need cs) need 0 cs
      ⟨r.1,before,before-r.2,before-r.2 > p.budget.threshold⟩

end Planning

/-! Recording the plan. -/

/-- The record of one step; the sequence of its result is zero when the step names only the id. -/
def CompactionStep.record (step : CompactionStep) (resultSeq : ℤ) : CompactionData :=
  ⟨step.toolCallID,resultSeq,step.text,step.fromBytes,step.toBytes⟩

/-- Append the steps in order, each under the sequence resolved for it. An append that is refused
ends the list and leaves the earlier ones recorded. -/
def applySteps : Log → List CompactionStep → List ℤ → Log × Except String Unit
  | l,[],_ => (l,.ok ())
  | l,step :: rest,seqs =>
    let named := step.occurrence > 0
    match l.append .toolResultCompacted
        (some (.ok (step.record (if named then seqs.headD 0 else 0)).marshal)) with
    | .ok r => applySteps r.1 rest (if named then seqs.tail else seqs)
    | .error e => (l,.error e)

def CompactionPlan.keys (plan : CompactionPlan) : List ResultKey :=
  (plan.steps.filter (fun s => s.occurrence > 0)).map (fun s => ⟨s.toolCallID,s.occurrence⟩)

/-- Write the plan to the log. A step the log cannot resolve fails before anything is written. -/
def CompactionPlan.apply (plan : CompactionPlan) (l : Log) : Log × Except String Unit :=
  match l.resultSeqs plan.keys with
  | .error e => (l.afterRead,.error e)
  | .ok (seqs,w) => applySteps w plan.steps seqs

/-- Record that the history still exceeds the window. -/
def reportOverflow (p : Planning) (plan : CompactionPlan) (l : Log) : Log × Except String Unit :=
  match l.append .contextOverflow (some (.ok (.obj
      [("estimated_tokens",Json.ofInt plan.after),("threshold",Json.ofInt p.budget.threshold),
       ("context_window",Json.ofInt p.budget.contextWindow)]))) with
  | .ok r => (r.1,.ok ())
  | .error e => (l,.error e)

/-- The history handed in when it carries exactly the log's results, else the log's own. -/
def plannedHistory (messages : List Message) (held : Bool × Log) :
    Except String (List Message × Log) :=
  if held.1 then .ok (messages,held.2) else held.2.deriveMessages

/-- The plan over that history, which skips the compactions already recorded. -/
def planOver (p : Planning) (messages : List Message) (l : Log) :
    Except String (CompactionPlan × Log) := do
  let held ← l.holdsResults messages
  let planned ← plannedHistory messages held
  let already ← planned.2.compactedCalls
  let done ← planned.2.compactedResults
  return (p.planCompactionCalibrated planned.1 already done.1,done.2)

/-- Plan, record and derive again: the log after the step, and the history to send. -/
def compact (p : Planning) (messages : List Message) (l : Log) :
    Log × Except String (List Message) :=
  match planOver p messages l with
  | .error e => (l.afterRead,.error e)
  | .ok (plan,w) =>
    if plan.steps = [] then
      if plan.insufficient then
        let r := reportOverflow p plan w
        (r.1,r.2.map (fun _ => messages))
      else (w,.ok messages)
    else
      let a := plan.apply w
      match a.2 with
      | .error e => (a.1,.error e)
      | .ok _ =>
        let r := if plan.insufficient then reportOverflow p plan a.1 else (a.1,.ok ())
        match r.2 with
        | .error e => (r.1,.error e)
        | .ok _ => (r.1.afterRead,r.1.deriveMessages.map Prod.fst)

end Manvi.Agent
