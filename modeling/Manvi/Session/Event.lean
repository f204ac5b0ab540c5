import Manvi.LLM.Clone

/-! Session events and the payloads the projection reads. -/
namespace Manvi.Session
open Manvi.Encoding Manvi.Encoding.Json Manvi.LLM

/-- The kind of a session event; other stands for a type this package does not name. -/
inductive EventType where
  | turnStart
  | turnEnd
  | stepStart
  | stepEnd
  | userMessage
  | systemPrompt
  | assistantChunk
  | assistantMessage
  | toolCall
  | toolResult
  | policyDenied
  | policyQualified
  | grantApplied
  | provenanceDropped
  | toolResultCompacted
  | contextOverflow
  | malformedToolCall
  | decodingCompensated
  | nullResponseRetried
  | verifyReport
  | promptAssembled
  | other (name : String)
  deriving Repr, DecidableEq

/-- The type's recorded spelling. -/
def EventType.name : EventType → String
  | .turnStart => "turn/start"
  | .turnEnd => "turn/end"
  | .stepStart => "step/start"
  | .stepEnd => "step/end"
  | .userMessage => "user/message"
  | .systemPrompt => "system/prompt"
  | .assistantChunk => "assistant/chunk"
  | .assistantMessage => "assistant/message"
  | .toolCall => "tool/call"
  | .toolResult => "tool/result"
  | .policyDenied => "policy/denied"
  | .policyQualified => "policy/qualified"
  | .grantApplied => "grant/applied"
  | .provenanceDropped => "provenance/dropped"
  | .toolResultCompacted => "context/tool_result_compacted"
  | .contextOverflow => "context/overflow"
  | .malformedToolCall => "tool/malformed"
  | .decodingCompensated => "llm/decoding_compensated"
  | .nullResponseRetried => "llm/null_response_retried"
  | .verifyReport => "verify/report"
  | .promptAssembled => "system/prompt_assembled"
  | .other name => name

/-- One durable record. A payload is absent or a document. -/
structure Event where
  seq : ℤ
  type : EventType
  turn : ℤ
  step : ℤ
  data : Option Json
  deriving Repr

/-- A whole message, who put it in the log, and how many signed blocks the scrubber removed. -/
structure MessageData where
  message : Message
  origin : String
  reasoningRedacted : ℤ

/-- The single model-facing outcome of a tool call. -/
structure ToolResultData where
  toolCallID : CallID
  text : String
  content : List ContentBlock
  isError : Bool

/-- One tool result shortened to fit the budget. A record without a result sequence names its
call id only, and applies to every result with that id. -/
structure CompactionData where
  toolCallID : CallID
  resultSeq : ℤ
  text : String
  fromBytes : ℤ
  toBytes : ℤ
  deriving Repr, DecidableEq

/-- Decoding a payload; an absent one is the end of input. -/
def decodeWith {α : Type} (unmarshal : Json → Except String α) : Option Json → Except String α
  | none => .error "unexpected end of JSON input"
  | some j => unmarshal j

namespace MessageData

def fields : List (StructField MessageData) :=
  [("message",fun d v => do return { d with message := ← Message.unmarshal v }),
   stringField "origin" origin fun d s => { d with origin := s },
   intField "reasoning_redacted" reasoningRedacted fun d n => { d with reasoningRedacted := n }]

def zero : MessageData := ⟨⟨.other "",[],none⟩,"",0⟩

def unmarshal : Option Json → Except String MessageData := decodeWith (storeInto fields zero)

def marshal (d : MessageData) : Except String Json := do
  let message ← d.message.marshal
  return .obj ([("message",message)] ++ WireBlock.stringMember "origin" d.origin ++
    (if d.reasoningRedacted = 0 then
      [] else [("reasoning_redacted",Json.ofInt d.reasoningRedacted)]))

/-- A decoded payload carries a message that can be copied. -/
theorem unmarshal_portable {data : Option Json} {d : MessageData} (h : unmarshal data = .ok d) :
    PortableMessage d.message := by
  cases data with
  | none => cases h
  | some j =>
    refine storeInto_invariant (P := fun d => PortableMessage d.message) ?_ ⟨by simp [zero],
      by simp [zero]⟩ h
    intro f hf cur v next hc hs
    simp only [fields,List.mem_cons,List.not_mem_nil,or_false] at hf
    rcases hf with rfl | rfl | rfl
    · obtain ⟨m,hm,hr⟩ := bind_ok hs
      cases hr
      exact Message.unmarshal_portable hm
    · obtain ⟨x,_,hr⟩ := bind_ok hs
      cases hr
      exact hc
    · obtain ⟨x,_,hr⟩ := bind_ok hs
      cases hr
      exact hc

end MessageData

namespace ToolResultData

def fields : List (StructField ToolResultData) :=
  [stringField "tool_call_id" toolCallID fun d s => { d with toolCallID := s },
   stringField "text" text fun d s => { d with text := s },
   ("content",fun d v => do
      let wire ← WireBlock.unmarshalAll v
      return { d with content := ← WireBlock.fromWires wire }),
   boolField "is_error" isError fun d b => { d with isError := b }]

def zero : ToolResultData := ⟨"","",[],false⟩

def unmarshal : Option Json → Except String ToolResultData := decodeWith (storeInto fields zero)

/-- A decoded result carries content that can be copied. -/
theorem unmarshal_portable {data : Option Json} {d : ToolResultData} (h : unmarshal data = .ok d) :
    ∀ b ∈ d.content, Portable b := by
  cases data with
  | none => cases h
  | some j =>
    refine storeInto_invariant (P := fun d => ∀ b ∈ d.content, Portable b) ?_ (by simp [zero]) h
    intro f hf cur v next hc hs
    simp only [fields,List.mem_cons,List.not_mem_nil,or_false] at hf
    rcases hf with rfl | rfl | rfl | rfl
    · obtain ⟨x,_,hr⟩ := bind_ok hs
      cases hr
      exact hc
    · obtain ⟨x,_,hr⟩ := bind_ok hs
      cases hr
      exact hc
    · obtain ⟨wire,hw,hs⟩ := bind_ok hs
      obtain ⟨content,hb,hr⟩ := bind_ok hs
      cases hr
      exact unmarshalAll_fromWires_portable hw hb
    · obtain ⟨x,_,hr⟩ := bind_ok hs
      cases hr
      exact hc

end ToolResultData

namespace CompactionData

def fields : List (StructField CompactionData) :=
  [stringField "tool_call_id" toolCallID fun d s => { d with toolCallID := s },
   intField "result_seq" resultSeq fun d n => { d with resultSeq := n },
   stringField "text" text fun d s => { d with text := s },
   intField "from_bytes" fromBytes fun d n => { d with fromBytes := n },
   intField "to_bytes" toBytes fun d n => { d with toBytes := n }]

def zero : CompactionData := ⟨"",0,"",0,0⟩

def unmarshal : Option Json → Except String CompactionData := decodeWith (storeInto fields zero)

def marshal (d : CompactionData) : Json :=
  .obj ([("tool_call_id",.str d.toolCallID)] ++
    (if d.resultSeq = 0 then [] else [("result_seq",Json.ofInt d.resultSeq)]) ++
    [("text",.str d.text),("from_bytes",Json.ofInt d.fromBytes),("to_bytes",Json.ofInt d.toBytes)])

end CompactionData

/-- A tool result carries text or content, not both, and its content is text and images. -/
def validateToolContent (d : ToolResultData) : Except String Unit :=
  if d.content ≠ [] ∧ d.text ≠ "" then
    .error "session: tool result cannot contain both text and content"
  else if d.content.all (fun b =>
    match b with | .text _ => true | .image _ _ => true | _ => false) then
    .ok ()
  else .error "session: tool result content must be text or image"

end Manvi.Session
