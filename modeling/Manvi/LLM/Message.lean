import Manvi.Encoding.JsonRoundTrip

/-! The provider-neutral message vocabulary, its wire codec, and the owned copy a reader of the
log receives. -/
namespace Manvi.LLM
open Manvi.Encoding

/-- A call identifier, which a provider may reuse across responses. -/
abbrev CallID := String

/-- One piece of a message. -/
inductive ContentBlock where
  | text (text : String)
  | reasoning (text signature : String) (redacted : Bool)
  | image (mediaType : String) (data : List UInt8)
  | toolCall (id : CallID) (name : String) (arguments : RawMessage)
  | toolResult (toolCallID : CallID) (content : List ContentBlock) (isError : Bool)
  deriving Repr

/-- The name of one result within a history: the call it answers, and which of the results
answering that call it is, counted from one. -/
structure ResultKey where
  id : CallID
  occurrence : ℕ
  deriving Repr, DecidableEq

inductive Role where
  | system
  | user
  | assistant
  | other (name : String)
  deriving Repr, DecidableEq

def Role.ofString (s : String) : Role :=
  if s = "system" then .system
  else if s = "user" then .user
  else if s = "assistant" then .assistant
  else .other s

def Role.name : Role → String
  | .system => "system"
  | .user => "user"
  | .assistant => "assistant"
  | .other s => s

/-- Who produced an assistant message, with that adapter's private replay state. -/
structure AssistantProvenance where
  provider : String
  model : String
  replayState : RawMessage
  deriving Repr, DecidableEq

structure Message where
  role : Role
  content : List ContentBlock
  provenance : Option AssistantProvenance
  deriving Repr

namespace ContentBlock

/-- Reasoning that carries a signature. -/
def isSigned : ContentBlock → Bool
  | .reasoning _ signature _ => signature != ""
  | _ => false

def isReasoning : ContentBlock → Bool
  | .reasoning _ _ _ => true
  | _ => false

end ContentBlock

/-- Remove the signed reasoning of a message and count what went. -/
def dropSignedReasoning (msg : Message) : Message × ℕ :=
  let kept := msg.content.filter (fun b => !b.isSigned)
  let dropped := msg.content.length-kept.length
  if dropped = 0 then (msg,0) else ({ msg with content := kept },dropped)

/-! The codec. Every block is tagged with its kind on the wire. -/

/-- One block on the wire, with the fields of every kind. -/
structure WireBlock where
  kind : String := ""
  text : String := ""
  signature : String := ""
  redacted : Bool := false
  mediaType : String := ""
  data : List UInt8 := []
  id : CallID := ""
  name : String := ""
  arguments : RawMessage := []
  toolCallID : CallID := ""
  content : List WireBlock := []
  isError : Bool := false
  deriving Repr

namespace WireBlock
open Json

/-- The fields of a wire block; nested is the member at hand read as a list of blocks. -/
def fields (nested : Except String (List WireBlock)) : List (StructField WireBlock) :=
  [stringField "kind" kind fun w s => { w with kind := s },
   stringField "text" text fun w s => { w with text := s },
   stringField "signature" signature fun w s => { w with signature := s },
   boolField "redacted" redacted fun w b => { w with redacted := b },
   stringField "media_type" mediaType fun w s => { w with mediaType := s },
   bytesField "data" data fun w d => { w with data := d },
   stringField "id" id fun w s => { w with id := s },
   stringField "name" name fun w s => { w with name := s },
   ("arguments",fun w v => .ok { w with arguments := encode v }),
   stringField "tool_call_id" toolCallID fun w s => { w with toolCallID := s },
   ("content",fun w _ => do return { w with content := ← nested }),
   boolField "is_error" isError fun w b => { w with isError := b }]

mutual
/-- Decode one wire block over the current value of its record. -/
def unmarshal (cur : WireBlock) : Json → Except String WireBlock
  | .null => .ok cur
  | .obj members => store cur members
  | _ => .error "json: cannot unmarshal into Go value of type llm.wireBlock"

/-- Store the members of a wire block in order. -/
def store (cur : WireBlock) : List (String × Json) → Except String WireBlock
  | [] => .ok cur
  | (key,v) :: rest => do
    let next ← storeMember (fields (unmarshalAll v)) cur (key,v)
    store next rest

/-- A list of wire blocks; null is the empty list. -/
def unmarshalAll : Json → Except String (List WireBlock)
  | .null => .ok []
  | .arr items => unmarshalItems items
  | _ => .error "json: cannot unmarshal into Go value of type []llm.wireBlock"

def unmarshalItems : List Json → Except String (List WireBlock)
  | [] => .ok []
  | j :: rest => do
    let w ← unmarshal {} j
    let ws ← unmarshalItems rest
    return w :: ws
end

mutual
/-- Dispatch a decoded block on its kind; an unknown kind is an error, never a skipped block. -/
def fromWire : WireBlock → Except String ContentBlock
  | ⟨kind,text,signature,redacted,mediaType,data,id,name,arguments,toolCallID,content,isError⟩ =>
    if kind = "text" then .ok (.text text)
    else if kind = "reasoning" then .ok (.reasoning text signature redacted)
    else if kind = "image" then .ok (.image mediaType data)
    else if kind = "tool_call" then .ok (.toolCall id name arguments)
    else if kind = "tool_result" then do
      let nested ← fromWires content
      return .toolResult toolCallID nested isError
    else if kind = "" then .error "llm: content block has no kind"
    else .error s!"llm: unknown content block kind {kind}"

def fromWires : List WireBlock → Except String (List ContentBlock)
  | [] => .ok []
  | w :: ws => do
    let b ← fromWire w
    let bs ← fromWires ws
    return b :: bs
end

mutual
def toWire : ContentBlock → WireBlock
  | .text text => { kind := "text", text }
  | .reasoning text signature redacted => { kind := "reasoning", text, signature, redacted }
  | .image mediaType data => { kind := "image", mediaType, data }
  | .toolCall id name arguments => { kind := "tool_call", id, name, arguments }
  | .toolResult toolCallID content isError =>
    { kind := "tool_result", toolCallID, content := toWires content, isError }

def toWires : List ContentBlock → List WireBlock
  | [] => []
  | b :: bs => toWire b :: toWires bs
end

/-- A string member that is left out when empty. -/
def stringMember (key value : String) : List (String × Json) :=
  if value = "" then [] else [(key,.str value)]

def boolMember (key : String) (value : Bool) : List (String × Json) :=
  if value then [(key,.bool true)] else []

/-- A raw member that is left out when empty and refused when it is no document. -/
def rawMember (key : String) (value : RawMessage) : Except String (List (String × Json)) :=
  if value = [] then .ok [] else
    match parse value with
    | some j => .ok [(key,j)]
    | none => .error "json: error calling MarshalJSON for type json.RawMessage"

mutual
/-- Encode one wire block, leaving out every empty field but the kind. -/
def marshal : WireBlock → Except String Json
  | ⟨kind,text,signature,redacted,mediaType,data,id,name,arguments,toolCallID,content,isError⟩ => do
    let args ← rawMember "arguments" arguments
    let nested ← marshalAll content
    return .obj ([("kind",.str kind)] ++ stringMember "text" text ++
      stringMember "signature" signature ++ boolMember "redacted" redacted ++
      stringMember "media_type" mediaType ++
      stringMember "data" (String.ofList (base64Encode data)) ++
      stringMember "id" id ++ stringMember "name" name ++ args ++
      stringMember "tool_call_id" toolCallID ++
      (if nested = [] then [] else [("content",.arr nested)]) ++ boolMember "is_error" isError)

def marshalAll : List WireBlock → Except String (List Json)
  | [] => .ok []
  | w :: ws => do
    let j ← marshal w
    let js ← marshalAll ws
    return j :: js
end

end WireBlock

namespace Message
open Json

def provenanceFields : List (StructField AssistantProvenance) :=
  [stringField "provider" AssistantProvenance.provider fun p s => { p with provider := s },
   stringField "model" AssistantProvenance.model fun p s => { p with model := s },
   ("replay_state",fun p v => .ok { p with replayState := encode v })]

/-- The wire form of a message while its members are stored. -/
structure Wire where
  role : String := ""
  content : List WireBlock := []
  provenance : Option AssistantProvenance := none

def storeProvenance (cur : Wire) : Json → Except String Wire
  | .null => .ok { cur with provenance := none }
  | v => do
    let p ← storeInto provenanceFields (cur.provenance.getD ⟨"","",[]⟩) v
    return { cur with provenance := some p }

def wireFields : List (StructField Wire) :=
  [stringField "role" Wire.role fun w s => { w with role := s },
   ("content",fun w v => do return { w with content := ← WireBlock.unmarshalAll v }),
   ("provenance",storeProvenance)]

/-- Decode a message, dispatching each block on its kind. -/
def unmarshal (j : Json) : Except String Message := do
  let wire ← storeInto wireFields {} j
  let content ← WireBlock.fromWires wire.content
  return ⟨Role.ofString wire.role,content,wire.provenance⟩

def marshalProvenance (p : AssistantProvenance) : Except String Json := do
  let replay ← WireBlock.rawMember "replay_state" p.replayState
  return .obj ([("provider",.str p.provider),("model",.str p.model)] ++ replay)

/-- Encode a message with kind-tagged content blocks. -/
def marshal (m : Message) : Except String Json := do
  let content ← WireBlock.marshalAll (WireBlock.toWires m.content)
  let provenance : List (String × Json) ← match m.provenance with
    | none => pure []
    | some p => do
      let j ← marshalProvenance p
      pure [("provenance",j)]
  return .obj ([("role",.str m.role.name),("content",.arr content)] ++ provenance)

end Message
end Manvi.LLM
