import Manvi.Session.Event

/-! Scrubbing payloads on their way into a log. A map decoded from an object is its members with
one entry for each name. -/
namespace Manvi.Session
open Manvi.Encoding Manvi.Encoding.Json Manvi.LLM

/-- The field names of the record's own readers, which are never rewritten outside a call's
free-form arguments. -/
def schemaKeys : List String :=
  ["kind","role","content","provenance",
   "text","step","attempt","of","verdict","source","paths","findings","degraded","bounce",
   "included","dropped","tokens","budget","digest","spec_name","spec_digest",
   "usage","cost_nano_usd","priced","no_response","message","origin","reasoning_redacted",
   "id","name","arguments","tool_call_id","is_error","tool","rule","severity","reason",
   "demoted","widened","grant_id","granted_by","target","drops","result_seq","from_bytes",
   "to_bytes","fallback_format","reasoning_reclassified","prefill_disproved",
   "arguments_repaired","estimated_tokens","threshold","context_window","signature","redacted",
   "media_type","data","provider","model","replay_state","message_index","from_provider",
   "from_model","to_provider","to_model","blocks","emptied","input_tokens","output_tokens",
   "cache_read_tokens","cache_write_tokens","reasoning_tokens","output_tokens_per_second",
   "prompt_tokens_per_second"]

def contentPairs : List String → Bool
  | [] => true
  | "content" :: "[]" :: rest => contentPairs rest
  | _ => false

/-- Only canonical content blocks are opaque. -/
def isContentPath (path : List String) : Bool :=
  let inner := if path.head? = some "message" then path.tail else path
  inner != [] && contentPairs inner

/-- Values the walk leaves alone: image bytes, a reasoning signature, an adapter's replay state. -/
def opaqueKey (blockKind : String) (path : List String) (key : String) : Bool :=
  (blockKind == "image" && key == "data") ||
    (blockKind == "reasoning" && key == "signature") ||
    (path == ["message","provenance"] && key == "replay_state")

/-- The first free suffix for a name, searching upwards. -/
def freeSuffix (taken : List String) (name : String) : ℕ → ℕ → ℕ
  | 0,n => n
  | fuel+1,n => if taken.contains s!"{name}#{n}" then freeSuffix taken name fuel (n+1) else n

/-- The entries placed so far, with the next suffix of each name. -/
structure Renaming where
  entries : List (String × Json)
  next : List (String × ℕ)

/-- Place one moved entry under its scrubbed name, or under the first free suffix of it. -/
def placeEntry (acc : Renaming) (name : String) (value : Json) : Renaming :=
  let taken := acc.entries.map Prod.fst
  if taken.contains name then
    let from_ := max (((acc.next.find? (fun p => p.1 == name)).map Prod.snd).getD 0) 2
    let n := freeSuffix taken name (taken.length+1) from_
    ⟨acc.entries ++ [(s!"{name}#{n}",value)],(name,n+1) :: acc.next⟩
  else ⟨acc.entries ++ [(name,value)],acc.next⟩

/-- Run the scrubber over the names of an object and move each entry whose name changed; the
flag says that some name changed. -/
def renameKeys (members : List (String × Json)) (scrub : String → String) (keep : String → Bool) :
    List (String × Json) × Bool :=
  let moves := members.filter (fun m => !keep m.1 && scrub m.1 != m.1)
  if moves = [] then (members,false)
  else
    let stay := members.filter (fun m => keep m.1 || scrub m.1 == m.1)
    let placed := (sortMembers moves).foldl (fun acc m => placeEntry acc (scrub m.1) m.2) ⟨stay,[]⟩
    (placed.entries,true)

/-- The kind of the block an object at a content path is. -/
def blockKindAt (path : List String) (members : List (String × Json)) : Except String String :=
  if isContentPath path then decodeWith (putString "") (lookup members "kind") else .ok ""

mutual
/-- Walk a value, scrubbing every string outside an opaque position and every free name. The flag
says that the scrubber rewrote something. -/
def rewritePayload (scrub : Option (String → String)) (pub : Bool) (path : List String)
    (free : Bool) (depth : ℕ) : Json → Except String (Json × Bool)
  | .obj members =>
    if depth > 128 then .error "session: payload nesting exceeds 128" else do
      let kind ← blockKindAt path members
      let r ← rewriteMembers scrub pub kind path free depth members
      match scrub with
      | none => return (.obj (sortMembers r.1),r.2)
      | some f =>
        let n := renameKeys r.1 f (fun key =>
          opaqueKey kind path key || (!free && schemaKeys.contains key))
        return (.obj (sortMembers n.1),r.2 || n.2)
  | .arr items =>
    if depth > 128 then .error "session: payload nesting exceeds 128" else do
      let r ← rewriteItems scrub pub path free depth items
      return (.arr r.1,r.2)
  | .str s =>
    if depth > 128 then .error "session: payload nesting exceeds 128" else
      match scrub with
      | none => .ok (.str s,false)
      | some f => .ok (.str (f s),f s != s)
  | j => if depth > 128 then .error "session: payload nesting exceeds 128" else .ok (j,false)

/-- The entries of the decoded map, rewritten; a member that a later one shadows is not in it. -/
def rewriteMembers (scrub : Option (String → String)) (pub : Bool) (kind : String)
    (path : List String) (free : Bool) (depth : ℕ) :
    List (String × Json) → Except String (List (String × Json) × Bool)
  | [] => .ok ([],false)
  | (key,value) :: rest =>
    if rest.any (fun m => m.1 == key) then rewriteMembers scrub pub kind path free depth rest
    else if opaqueKey kind path key then do
      let r ← rewriteMembers scrub pub kind path free depth rest
      return (if pub && kind != "image" then r.1 else (key,value) :: r.1,r.2)
    else do
      let v ← rewritePayload scrub pub (path ++ [key])
        (free || (key == "arguments" && (path.isEmpty || kind == "tool_call"))) (depth+1) value
      let r ← rewriteMembers scrub pub kind path free depth rest
      return ((key,v.1) :: r.1,v.2 || r.2)

def rewriteItems (scrub : Option (String → String)) (pub : Bool) (path : List String)
    (free : Bool) (depth : ℕ) : List Json → Except String (List Json × Bool)
  | [] => .ok ([],false)
  | j :: rest => do
    let v ← rewritePayload scrub pub (path ++ ["[]"]) free (depth+1) j
    let r ← rewriteItems scrub pub path free depth rest
    return (v.1 :: r.1,v.2 || r.2)
end

/-- The head of a content block, as the search for signed reasoning reads it. -/
structure BlockHead where
  kind : String := ""
  text : String := ""
  signature : String := ""

def BlockHead.fields : List (StructField BlockHead) :=
  [stringField "kind" BlockHead.kind fun h s => { h with kind := s },
   stringField "text" BlockHead.text fun h s => { h with text := s },
   stringField "signature" BlockHead.signature fun h s => { h with signature := s }]

/-- The text of a signed reasoning block. -/
def signedText (block : Json) : Option String :=
  match storeInto BlockHead.fields {} block with
  | .ok h => if h.kind = "reasoning" ∧ h.signature ≠ "" then some h.text else none
  | .error _ => none

/-- Setting an entry of a decoded map. -/
def setEntry (members : List (String × Json)) (key : String) (value : Json) :
    List (String × Json) :=
  (dedup members).filter (fun m => m.1 != key) ++ [(key,value)]

/-- Remove the signed reasoning of an assistant message when the scrubber would change any of
it, recording how many blocks went. -/
def dropScrubbedSignedReasoning (raw : Json) (scrub : String → String) : Json × Bool :=
  match raw with
  | .obj payload => match lookup payload "message" with
    | some (.obj message) => match lookup message "content" with
      | some (.arr content) =>
        let signed := content.filterMap signedText
        if signed.any (fun t => scrub t != t) then
          let kept := content.filter (fun b => (signedText b).isNone)
          let message' := Json.obj (sortMembers (setEntry message "content" (.arr kept)))
          (.obj (sortMembers (setEntry (setEntry payload "message" message') "reasoning_redacted"
            (Json.ofInt signed.length))),true)
        else (raw,false)
      | _ => (raw,false)
    | _ => (raw,false)
  | _ => (raw,false)

/-- How a payload is scrubbed, for a live append and for a sensitive restore alike. -/
def scrubPayload (t : EventType) (raw : Json) (scrub : String → String) :
    Except String (Json × Bool) := do
  let dropped := if t = .assistantMessage then dropScrubbedSignedReasoning raw scrub
    else (raw,false)
  let r ← rewritePayload (some scrub) false [] false 0 dropped.1
  return (r.1,dropped.2 || r.2)

/-- Remove all signed reasoning from an assistant message and add the count to its record. -/
def dropPrefixInvalidatedReasoning (raw : Json) : Except String Json := do
  let data ← MessageData.unmarshal (some raw)
  let dropped := dropSignedReasoning data.message
  if dropped.2 = 0 then return raw
  else MessageData.marshal ⟨dropped.1,data.origin,data.reasoningRedacted+dropped.2⟩

/-- The event without the adapter's private continuation data. -/
def Event.publicData (t : EventType) (data : Option Json) : Except String (Option Json) :=
  match t, data with
  | .userMessage, some j => do return some (← rewritePayload none true [] false 0 j).1
  | .assistantMessage, some j => do return some (← rewritePayload none true [] false 0 j).1
  | _, d => .ok d

end Manvi.Session
