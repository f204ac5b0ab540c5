import Manvi.Encoding.Space
import Manvi.Encoding.Table
import Manvi.LLM.Message

/-! The decoder of a streamed response: the events of the wire, the blocks they fill, and the
message that is assembled from these. -/
namespace Manvi.Anthropic
open Manvi.Encoding Manvi.LLM

def maxDecodedResponseBytes : ℕ := 4*1024*1024

/-- What each open block is charged beside its content. -/
def retainedAccumulatorBytes : ℕ := 256

inductive EventKind
  | messageStart
  | contentBlockStart
  | contentBlockDelta
  | contentBlockStop
  | messageDelta
  | messageStop
  | ping
  | error
  | other (name : String)
  deriving DecidableEq

inductive BlockKind
  | text
  | thinking
  | redactedThinking
  | toolUse
  | other (name : String)
  deriving DecidableEq

inductive DeltaKind
  | text
  | thinking
  | signature
  | inputJSON
  | other (name : String)
  deriving DecidableEq

structure WireBlock where
  kind : BlockKind
  text : String := ""
  data : String := ""
  id : String := ""
  name : String := ""
  deriving DecidableEq

structure WireDelta where
  kind : DeltaKind
  text : String := ""
  thinking : String := ""
  signature : String := ""
  partialJSON : String := ""
  stopReason : String := ""
  deriving DecidableEq

structure WireUsage where
  inputTokens : ℤ := 0
  outputTokens : ℤ := 0
  cacheCreationInputTokens : ℤ := 0
  cacheReadInputTokens : ℤ := 0
  thinkingTokens : Option ℤ := none
  deriving DecidableEq

/-- An event of the wire. A kind that is not given is none. -/
structure WireEvent where
  name : Option EventKind := none
  type : Option EventKind := none
  index : ℤ := 0
  message : Option WireUsage := none
  contentBlock : Option WireBlock := none
  delta : Option WireDelta := none
  usage : Option WireUsage := none
  error : Option (String × String) := none
  deriving DecidableEq

/-- What the transport delivers: an event, or a frame that does not decode. -/
inductive Frame
  | undecodable
  | event (e : WireEvent)
  deriving DecidableEq

inductive StopReason
  | endTurn
  | toolUse
  | maxTokens
  | refusal
  | other
  deriving DecidableEq

structure Usage where
  inputTokens : ℤ := 0
  outputTokens : ℤ := 0
  cacheReadTokens : ℤ := 0
  cacheWriteTokens : ℤ := 0
  reasoningTokens : ℤ := 0
  deriving DecidableEq

inductive Chunk
  | text (index : ℤ) (text : String)
  | reasoning (index : ℤ) (text : String)
  | toolCallStart (index : ℤ) (id : CallID) (name : String)
  | toolCallDelta (index : ℤ) (id : CallID) (name argumentsRaw : String)
  deriving DecidableEq

inductive StreamErr
  | undecodable
  | nameDisagrees
  | streamError (message : String)
  | startWithoutBlock
  | unstartedBlock (index : ℤ)
  | unknownDelta (name : String)
  | decodeLimit (held : ℕ)
  | truncated
  | notExhausted
  | neverOpened (index : ℤ)
  | noName (id : String)
  | noID (name : String)
  | incompleteArguments (name args : String)
  | neverClosed (name id : String)
  deriving DecidableEq

structure Accumulator where
  kind : BlockKind
  text : String := ""
  signature : String := ""
  data : String := ""
  toolID : String := ""
  toolName : String := ""
  args : String := ""
  isSealed : Bool := false
  deriving DecidableEq

structure Stream where
  model : String
  maxTokensApplied : ℤ
  blocks : Table ℤ Accumulator := .empty
  retained : ℕ := 0
  order : List ℤ := []
  stopReason : Option StopReason := none
  usage : Usage := {}
  promptSeen : Bool := false
  stopped : Bool := false
  done : Bool := false
  failure : Option StreamErr := none

def mapStopReason (raw : String) : StopReason :=
  if raw = "end_turn" ∨ raw = "stop_sequence" then .endTurn
  else if raw = "tool_use" then .toolUse
  else if raw = "max_tokens" ∨ raw = "model_context_window_exceeded" then .maxTokens
  else if raw = "refusal" then .refusal
  else .other

def mergeUsage (into : Usage) (w : WireUsage) : Usage where
  inputTokens := if 0 < w.inputTokens then w.inputTokens else into.inputTokens
  outputTokens := if 0 < w.outputTokens then w.outputTokens else into.outputTokens
  cacheReadTokens := if 0 < w.cacheReadInputTokens then w.cacheReadInputTokens
    else into.cacheReadTokens
  cacheWriteTokens := if 0 < w.cacheCreationInputTokens then w.cacheCreationInputTokens
    else into.cacheWriteTokens
  reasoningTokens := if 0 < w.thinkingTokens.getD 0 then w.thinkingTokens.getD 0
    else into.reasoningTokens

/-- Usage with the whole prompt as its input, the cached part included. -/
def wholePrompt (u : Usage) : Usage :=
  { u with inputTokens := u.inputTokens+u.cacheReadTokens+u.cacheWriteTokens }

/-- A block as its start event opens it. -/
def Accumulator.start (b : WireBlock) : Accumulator :=
  match b.kind with
  | .toolUse => { kind := .toolUse, toolID := b.id, toolName := b.name }
  | .text => { kind := .text, text := b.text }
  | .redactedThinking => { kind := .redactedThinking, data := b.data }
  | kind => { kind := kind }

/-- A block with one more delta. A delta of an unknown type has no place in it. -/
def Accumulator.add (acc : Accumulator) (d : WireDelta) : Accumulator :=
  match d.kind with
  | .text => { acc with text := acc.text ++ d.text }
  | .thinking => { acc with text := acc.text ++ d.thinking }
  | .signature => { acc with signature := acc.signature ++ d.signature }
  | .inputJSON => { acc with args := acc.args ++ d.partialJSON }
  | .other _ => acc

/-- The bytes a block holds, with its charge. -/
def Accumulator.weight (acc : Accumulator) : ℕ :=
  retainedAccumulatorBytes+acc.text.utf8ByteSize+acc.signature.utf8ByteSize+acc.data.utf8ByteSize+
    acc.toolID.utf8ByteSize+acc.toolName.utf8ByteSize+acc.args.utf8ByteSize

namespace Stream

/-- Open a block. The charge falls due with the block, not with its content. -/
def startBlock (s : Stream) (index : ℤ) (b : WireBlock) : Stream × Option Chunk :=
  let s' := { s with
    blocks := s.blocks.set index (.start b), order := s.order ++ [index],
    retained := s.retained+retainedAccumulatorBytes }
  match b.kind with
  | .toolUse => ({ s' with retained := s'.retained+(b.id.utf8ByteSize+b.name.utf8ByteSize) },
      some (.toolCallStart index b.id b.name))
  | .text =>
    if b.text ≠ "" then ({ s' with retained := s'.retained+b.text.utf8ByteSize },
      some (.text index b.text))
    else (s',none)
  | .redactedThinking => ({ s' with retained := s'.retained+b.data.utf8ByteSize },none)
  | _ => (s',none)

def addDelta (s : Stream) (index : ℤ) (acc : Accumulator) (d : WireDelta) :
    Except StreamErr (Stream × Option Chunk) :=
  let s' := { s with blocks := s.blocks.set index (acc.add d) }
  match d.kind with
  | .text => .ok ({ s' with retained := s.retained+d.text.utf8ByteSize },some (.text index d.text))
  | .thinking => .ok ({ s' with retained := s.retained+d.thinking.utf8ByteSize },
    some (.reasoning index d.thinking))
  | .signature => .ok ({ s' with retained := s.retained+d.signature.utf8ByteSize },none)
  | .inputJSON => .ok ({ s' with retained := s.retained+d.partialJSON.utf8ByteSize },
      some (.toolCallDelta index acc.toolID acc.toolName d.partialJSON))
  | .other name => .error (.unknownDelta name)

def closeBlock (s : Stream) (index : ℤ) : Stream :=
  match s.blocks.get index with
  | some acc => { s with blocks := s.blocks.set index { acc with isSealed := true } }
  | none => s

def apply (s : Stream) (ev : WireEvent) : Except StreamErr (Stream × Option Chunk) :=
  match ev.type with
  | some .error => .error (.streamError (match ev.error with
      | some (type,message) => type ++ ": " ++ message
      | none => "unspecified"))
  | some .messageStart => match ev.message with
    | some w =>
      let usage := mergeUsage s.usage w
      let prompt := usage.inputTokens+usage.cacheReadTokens+usage.cacheWriteTokens
      .ok ({ s with usage := usage, promptSeen := 0 < prompt },none)
    | none => .ok (s,none)
  | some .contentBlockStart => match ev.contentBlock with
    | none => .error .startWithoutBlock
    | some b => .ok (s.startBlock ev.index b)
  | some .contentBlockDelta => match s.blocks.get ev.index,ev.delta with
    | some acc,some d => s.addDelta ev.index acc d
    | _,_ => .error (.unstartedBlock ev.index)
  | some .messageDelta =>
    let stopReason := match ev.delta with
      | some d => if d.stopReason ≠ "" then some (mapStopReason d.stopReason) else s.stopReason
      | none => s.stopReason
    let usage := match ev.usage with
      | some w => mergeUsage s.usage w
      | none => s.usage
    .ok ({ s with stopReason := stopReason, usage := usage },none)
  | some .messageStop => .ok ({ s with stopped := true },none)
  | some .contentBlockStop => .ok (s.closeBlock ev.index,none)
  | _ => .ok (s,none)

/-- Whether the name of an event and the type of its payload are both given and differ. -/
def disagrees (ev : WireEvent) : Bool := ev.name.isSome && ev.type.isSome && ev.name ≠ ev.type

/-- What reading one frame does. A failure is kept, and nothing is read behind it. -/
def next (s : Stream) (frame : Frame) : Stream × Option Chunk :=
  if s.failure.isSome then (s,none)
  else match frame with
    | .undecodable => ({ s with failure := some .undecodable },none)
    | .event ev =>
      if disagrees ev then ({ s with failure := some .nameDisagrees },none)
      else match s.apply ev with
        | .error err => ({ s with failure := some err },none)
        | .ok (s',chunk) =>
          (if maxDecodedResponseBytes < s'.retained then
            { s' with failure := some (.decodeLimit s'.retained) }
            else s',chunk)

/-- The end of the connection. -/
def eof (s : Stream) : Stream :=
  if s.failure.isSome then s
  else if s.stopped then { s with done := true }
  else { s with done := true, failure := some .truncated }

/-- A stream once it has read some frames. -/
def run (s : Stream) (frames : List Frame) : Stream := frames.foldl (fun s f => (s.next f).1) s

end Stream

structure MalformedCall where
  id : CallID
  name : String
  reason : String
  deriving DecidableEq

structure Response where
  message : Message
  stopReason : StopReason
  usage : Usage
  maxTokensApplied : ℤ
  malformed : List MalformedCall

/-- Whether nothing is left of a text when the space around it is trimmed. -/
def blank (s : String) : Bool := s.toList.all Runes.isSpace

def jsonValid (raw : RawMessage) : Bool := (Json.parse raw).isSome

namespace Accumulator

/-- The arguments of a call; an absent object is an empty one. -/
def arguments (acc : Accumulator) : RawMessage :=
  if acc.args = "" then "\x7b\x7d".toList else acc.args.toList

/-- Whether a call arrived whole. -/
def complete (acc : Accumulator) : Bool := acc.isSealed && jsonValid acc.arguments

def malformedCall (acc : Accumulator) : MalformedCall where
  id := acc.toolID
  name := acc.toolName
  reason := "the arguments were cut off by the output limit after " ++
    toString acc.args.utf8ByteSize ++
    " bytes and are not complete JSON"

/-- What a block comes to: a block of the message, a malformed call, or neither. -/
def settle (stop : Option StopReason) (acc : Accumulator) :
    Except StreamErr (List ContentBlock × List MalformedCall) :=
  match acc.kind with
  | .text => .ok ([.text acc.text],[])
  | .thinking => .ok ([.reasoning acc.text acc.signature false],[])
  | .redactedThinking => .ok ([.reasoning "" acc.data true],[])
  | .toolUse =>
    if blank acc.toolName then .error (.noName acc.toolID)
    else if blank acc.toolID then .error (.noID acc.toolName)
    else if ¬ acc.complete ∧ stop = some .maxTokens then .ok ([],[acc.malformedCall])
    else if ¬ jsonValid acc.arguments then
      .error (.incompleteArguments acc.toolName (String.ofList acc.arguments))
    else if ¬ acc.isSealed then .error (.neverClosed acc.toolName acc.toolID)
    else .ok ([.toolCall acc.toolID acc.toolName acc.arguments],[])
  | .other _ => .ok ([],[])

end Accumulator

namespace Stream

/-- The blocks in the order they were opened. -/
def assemble (s : Stream) : List ℤ → Except StreamErr (List ContentBlock × List MalformedCall)
  | [] => .ok ([],[])
  | index :: rest => match s.blocks.get index with
    | none => .error (.neverOpened index)
    | some acc => do
      let here ← acc.settle s.stopReason
      let later ← s.assemble rest
      return (here.1 ++ later.1,here.2 ++ later.2)

/-- The settled message. -/
def response (s : Stream) : Except StreamErr Response :=
  match s.failure with
  | some err => .error err
  | none =>
    if ¬ s.done then .error .notExhausted
    else if ¬ s.stopped then .error .truncated
    else do
      let settled ← s.assemble s.order
      return {
        message := ⟨.assistant,settled.1,some ⟨"anthropic",s.model,[]⟩⟩
        stopReason := s.stopReason.getD .other
        usage := wholePrompt s.usage
        maxTokensApplied := s.maxTokensApplied
        malformed := settled.2 }

end Stream

end Manvi.Anthropic
