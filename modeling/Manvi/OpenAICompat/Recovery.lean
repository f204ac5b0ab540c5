import Manvi.Encoding.Blocks
import Manvi.Encoding.JsonCompacted
import Manvi.Encoding.Table
import Manvi.OpenAICompat.JsonRepair
import Manvi.OpenAICompat.TypedParam

/-! Recovering the tool calls that a server left in the text: the three spellings of a call, the
blocks they stand in and the text that is left without them. -/
namespace Manvi.OpenAICompat.Recovery
open Manvi.Encoding Manvi.Encoding.Json

def schemaOffers (tools : List ToolSchema) (name : String) : Bool :=
  tools.any (fun t => t.name = name)

structure ParsedCall where
  name : String
  args : RawMessage
  xml : Bool
  deriving DecidableEq

structure ToolCallBlock where
  name : String
  arguments : RawMessage
  deriving DecidableEq

/-! A call written as JSON. -/

/-- The members of an object with the text of each value. -/
def rawMembersFrom : ℕ → List Char → List (String × Json × RawMessage)
  | 0,_ => []
  | n+1,cs => match parseString (skipSpace cs) with
    | some (key,rest) => match skipSpace rest with
      | ':' :: rest =>
        let start := skipSpace rest
        match parseValue (start.length+1) start with
        | some (value,after) =>
          (key,value,start.take (start.length-after.length)) :: (match skipSpace after with
            | ',' :: rest => rawMembersFrom n rest
            | _ => [])
        | none => []
      | _ => []
    | none => []

def rawMembers (text : List Char) : List (String × Json × RawMessage) := match skipSpace text with
  | '\x7b' :: rest => rawMembersFrom (rest.length+1) rest
  | _ => []

structure CallBody where
  name : String := ""
  tool : String := ""
  arguments : RawMessage := []
  parameters : RawMessage := []

/-- Store a member; a value of another type than its field's is an error, and decoding goes on. -/
def CallBody.store (body : CallBody) (m : String × Json × RawMessage) : CallBody × Bool :=
  if foldEq m.1 "name" then match m.2.1 with
    | .str s => ({ body with name := s },true)
    | .null => (body,true)
    | _ => (body,false)
  else if foldEq m.1 "tool" then match m.2.1 with
    | .str s => ({ body with tool := s },true)
    | .null => (body,true)
    | _ => (body,false)
  else if foldEq m.1 "arguments" then ({ body with arguments := m.2.2 },true)
  else if foldEq m.1 "parameters" then ({ body with parameters := m.2.2 },true)
  else (body,true)

/-- Decode a text over a body, and whether that went without an error. -/
def CallBody.decode (body : CallBody) (text : List Char) : CallBody × Bool :=
  match unmarshal text with
  | none => (body,false)
  | some .null => (body,true)
  | some (.obj _) => (rawMembers text).foldl (fun cur m => ((cur.1.store m).1,
    cur.2 && (cur.1.store m).2)) (body,true)
  | some _ => (body,false)

/-- The arguments of a call as an object: one that is written as a string is unwrapped once. -/
def argumentsAsObject (args : RawMessage) : Option RawMessage :=
  let trimmed := Runes.trimSpace args
  match trimmed with
  | '\x7b' :: _ => if valid trimmed then some trimmed else none
  | '"' :: _ => match unmarshal trimmed with
    | some (.str inner) =>
      let unwrapped := Runes.trimSpace (sanitizeJSONArguments inner.toList)
      if unwrapped.head? = some '\x7b' ∧ valid unwrapped then some unwrapped else none
    | _ => none
  | _ => none

/-- What a decoded body calls. -/
def CallBody.call (body : CallBody) : Option (String × RawMessage) :=
  let name := if body.name = "" then body.tool else body.name
  if name = "" then none
  else
    let args := if body.arguments = [] then body.parameters else body.arguments
    if args = [] then some (name,['\x7b','\x7d'])
    else (argumentsAsObject (sanitizeJSONArguments args)).map (fun object => (name,object))

def parseJSONCall (payload : List Char) : Option (String × RawMessage) :=
  let first := CallBody.decode {} payload
  if first.2 then first.1.call
  else
    let second := first.1.decode (repairJSONLiterals payload)
    if second.2 then second.1.call else none

/-! A call written as markup. -/

def functionOpen : List Char := ['<','f','u','n','c','t','i','o','n','=']

def functionClose : List Char := ['<','/','f','u','n','c','t','i','o','n','>']

def parameterOpen : List Char := ['<','p','a','r','a','m','e','t','e','r','=']

def parameterClose : List Char := ['<','/','p','a','r','a','m','e','t','e','r','>']

/-- The position of the last occurrence of a tag. -/
def lastIndex (text tag : List Char) : Option ℕ :=
  (index text.reverse tag.reverse).map (fun i => text.length-tag.length-i)

def trimNewlines (text : List Char) : List Char :=
  ((text.dropWhile (· = '\n')).reverse.dropWhile (· = '\n')).reverse

/-- The parameters of a function block, put into a map; one that is not closed refuses them all. -/
def xmlParametersFrom (types : String → String) : ℕ → Table String RawMessage → List Char →
    Option (Table String RawMessage)
  | 0,_,_ => none
  | n+1,args,rest => match index rest parameterOpen with
    | none => some args
    | some start =>
      let rest := rest.drop (start+parameterOpen.length)
      match index rest ['>'] with
      | none => none
      | some keyEnd =>
        let key := String.ofList (Runes.trimSpace (rest.take keyEnd))
        let rest := rest.drop (keyEnd+1)
        let region := match index rest parameterOpen with
          | some next => rest.take next
          | none => rest
        match lastIndex region parameterClose with
        | none => none
        | some stop =>
          let value := String.ofList (trimNewlines (rest.take stop))
          let rest := rest.drop (stop+parameterClose.length)
          xmlParametersFrom types n (if key = "" then
            args else args.set key (typedParam value (types key))) rest

/-- The members of a map of raw values, with the closing brace. -/
def encodeRawMembers : List (String × RawMessage) → List Char
  | [] => ['\x7d']
  | [(key,raw)] => encodeString key ++ ':' :: (raw ++ ['\x7d'])
  | (key,raw) :: m :: rest => encodeString key ++
    ':' :: (raw ++ ',' :: encodeRawMembers (m :: rest))

/-- Encode a map of raw values: in the order of the keys, each value compacted, and none may be no
document. -/
def marshalRawMap (args : Table String RawMessage) : Option RawMessage :=
  let sorted := args.entries.insertionSort (fun a b => a.1 ≤ b.1)
  if sorted.all (fun e => valid e.2) then
    some ('\x7b' :: encodeRawMembers (sorted.map (fun e => (e.1,compact false false e.2))))
  else none

def xmlParameters (body : List Char) (types : String → String) : Option RawMessage :=
  (xmlParametersFrom types (body.length+1) Table.empty body).bind marshalRawMap

/-- The name of a function as it stands in its opening tag. -/
def functionName (text : List Char) : List Char :=
  Runes.trimSpace (if text.getLast? = some '/' then text.dropLast else text)

/-- A function block up to its closing tag, which the last may lack, and what follows it. -/
def functionBody (rest : List Char) : List Char × List Char := match index rest functionClose with
  | some closeAt => (rest.take closeAt,rest.drop (closeAt+functionClose.length))
  | none => (rest,[])

def parseXMLCallsFrom (tools : List ToolSchema) : ℕ → List Char → Option (List ParsedCall)
  | 0,_ => none
  | n+1,rest => match index rest functionOpen with
    | none => some []
    | some start =>
      let rest := rest.drop (start+functionOpen.length)
      match index rest ['>'] with
      | none => none
      | some nameEnd =>
        let name := functionName (rest.take nameEnd)
        let parts := functionBody (rest.drop (nameEnd+1))
        if name = [] then none
        else if contains parts.1 functionOpen then none
        else match xmlParameters parts.1 (paramTypes tools (String.ofList name)) with
          | none => none
          | some args => (parseXMLCallsFrom tools n parts.2).map (fun calls => ⟨String.ofList name,
            args,true⟩ :: calls)

def parseXMLCalls (payload : List Char) (tools : List ToolSchema) : Option (List ParsedCall) :=
  match parseXMLCallsFrom tools (payload.length+1) payload with
  | some [] => none
  | found => found

/-- One block in either spelling; a call of a tool that was not offered refuses the whole block. -/
def parseCallPayload (payload : List Char) (tools : List ToolSchema) : Option (List ParsedCall) :=
  let found := if functionOpen.isPrefixOf payload then parseXMLCalls payload tools
    else (parseJSONCall payload).map (fun call => [⟨call.1,call.2,false⟩])
  match found with
  | none => none
  | some calls => if calls.all (fun call => schemaOffers tools call.name) then some calls else none

/-! The blocks of a text. -/

def toolCallOpen : List Char := ['<','t','o','o','l','_','c','a','l','l','>']

def toolCallClose : List Char := ['<','/','t','o','o','l','_','c','a','l','l','>']

/-- Walk the tool-call blocks of a text: what is left as prose, and the calls. -/
def walkTaggedCalls (tools : List ToolSchema) : ℕ → List Char → List Char × List ParsedCall :=
  walkBlocks toolCallOpen toolCallClose (fun body => parseCallPayload (Runes.trimSpace body) tools)

def extractTaggedCalls (data : List Char) (tools : List ToolSchema) : List Char × List ParsedCall :=
  if !contains data toolCallOpen then (data,[])
  else
    let walked := walkTaggedCalls tools (data.length+1) data
    if walked.2 = [] then (data,[]) else (Runes.trimSpace walked.1,walked.2)

/-- The call that a markdown fence holds. -/
def fenceCall (tools : List ToolSchema) (body : List Char) : Option ToolCallBlock :=
  let inner := Runes.trimSpace body
  let inner := if ['j','s','o','n'].isPrefixOf inner then inner.drop 4 else inner
  match parseJSONCall (Runes.trimSpace inner) with
  | some (name,args) => if schemaOffers tools name then some ⟨name,args⟩ else none
  | none => none

/-- Where the walk of the fences stands. -/
structure FenceWalk where
  clean : List Char := []
  calls : List ToolCallBlock := []
  proseAfterCall : Bool := false

def walkFences (tools : List ToolSchema) : ℕ → FenceWalk → List Char → FenceWalk
  | 0,w,_ => w
  | n+1,w,rest => match index rest fence with
    | none => { w with
        clean := w.clean ++ rest
        proseAfterCall := w.proseAfterCall || (w.calls ≠ [] && Runes.trimSpace rest ≠ []) }
    | some start =>
      let body := rest.drop (start+3)
      match index body fence with
      | none => { w with
        clean := w.clean ++ rest, proseAfterCall := w.proseAfterCall || w.calls ≠ [] }
      | some stop =>
        let after := body.drop (stop+3)
        let prose := w.proseAfterCall || (w.calls ≠ [] && Runes.trimSpace (rest.take start) ≠ [])
        match fenceCall tools (body.take stop) with
        | some call => walkFences tools n ⟨w.clean ++ rest.take start,w.calls ++ [call],prose⟩ after
        | none => walkFences tools n ⟨w.clean ++ rest.take (start+3+stop+3),w.calls,
          prose || w.calls ≠ []⟩ after

def extractFencedCalls (data : List Char) (tools : List ToolSchema) :
    List Char × List ToolCallBlock :=
  let w := walkFences tools (data.length+1) {} data
  if w.calls = [] ∨ w.proseAfterCall then (data,[]) else (Runes.trimSpace w.clean,w.calls)

inductive FallbackFormat
  | none
  | hermes
  | qwenXML
  | fencedJSON
  deriving DecidableEq

/-- Recover the calls of a text: from its tool-call blocks, and if they hold none from its
fences. -/
def extractFallbackToolCalls (rawText : List Char) (tools : List ToolSchema) :
    List Char × List ToolCallBlock × FallbackFormat :=
  let trimmed := Runes.trimSpace rawText
  if trimmed = [] then (rawText,[],.none)
  else
    let tagged := extractTaggedCalls trimmed tools
    if tagged.2 ≠ [] then
      (tagged.1,tagged.2.map (fun c => ⟨c.name,c.args⟩),if tagged.2.any ParsedCall.xml then
        .qwenXML else .hermes)
    else
      let fenced := extractFencedCalls trimmed tools
      if fenced.2 ≠ [] then (fenced.1,fenced.2,.fencedJSON)
      else (rawText,[],.none)

end Manvi.OpenAICompat.Recovery
