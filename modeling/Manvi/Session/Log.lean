import Manvi.Session.Privacy
import Manvi.Encoding.Table

/-! The append-only event log and the projection kept warm across appends. -/
namespace Manvi.Session
open Manvi.Encoding Manvi.LLM

/-- A compaction that names its result: the call id it was written for, and its text. -/
structure KeyedCompaction where
  id : CallID
  text : String
  deriving Repr, DecidableEq

/-- One tool result event as the projection remembers it. -/
structure ResultRef where
  seq : ℤ
  id : CallID
  deriving Repr, DecidableEq

/-- The compactions that name only a call id, and those that name their result. -/
structure Ledger where
  compacted : Table CallID String
  bySeq : Table ℤ KeyedCompaction

/-- The results seen, the messages, and the results not yet grouped into a message. -/
structure History where
  results : List ResultRef
  messages : List Message
  pending : List ContentBlock

structure Projection extends Ledger, History where
  valid : Bool
  ignored : ℕ

/-- The compacted text for the result at seq answering id. -/
def Ledger.shortened (l : Ledger) (seq : ℤ) (id : CallID) : Option String :=
  match l.bySeq.get seq with
  | some c => if c.id = id then some c.text else l.compacted.get id
  | none => l.compacted.get id

/-- Group the accumulated tool results into one user message. -/
def History.flushPending (h : History) : History :=
  if h.pending = [] then h
  else { h with messages := h.messages ++ [⟨.user,h.pending,none⟩], pending := [] }

/-- The messages a request is built from: the flushed ones, then any group still open. -/
def History.derived (h : History) : List Message :=
  if h.pending = [] then h.messages else h.messages ++ [⟨.user,h.pending,none⟩]

def History.addMessage (h : History) (m : Message) : History :=
  let f := h.flushPending
  { f with messages := f.messages ++ [m] }

/-- What a result replays as: its compacted text, its content, or its text. -/
def Ledger.resultContent (l : Ledger) (seq : ℤ) (d : ToolResultData) : List ContentBlock :=
  match l.shortened seq d.toolCallID with
  | some short => [.text short]
  | none => if d.content = [] then [.text d.text] else d.content

def History.addResult (h : History) (l : Ledger) (seq : ℤ) (d : ToolResultData) : History :=
  { h with
    results := h.results ++ [⟨seq,d.toolCallID⟩]
    pending := h.pending ++ [.toolResult d.toolCallID (l.resultContent seq d) d.isError] }

/-- Name what an error came from. -/
def during {α : Type} (context : String) : Except String α → Except String α
  | .ok a => .ok a
  | .error e => .error s!"session: {context}: {e}"

/-- Name the event an error came from. -/
def atEvent {α : Type} (seq : ℤ) : Except String α → Except String α := during s!"event {seq}"

/-- First pass of a replay: one compaction record enters its ledger. -/
def recordCompaction (l : Ledger) (e : Event) : Except String Ledger :=
  if e.type = .toolResultCompacted then do
    let c ← atEvent e.seq (CompactionData.unmarshal e.data)
    if c.resultSeq > 0 then
      return { l with bySeq := l.bySeq.set c.resultSeq ⟨c.toolCallID,c.text⟩ }
    else return { l with compacted := l.compacted.set c.toolCallID c.text }
  else .ok l

def collectLedger (events : List Event) : Except String Ledger :=
  events.foldlM recordCompaction ⟨Table.empty,Table.empty⟩

/-- Second pass of a replay: one event enters the history. -/
def replayEvent (l : Ledger) (h : History) (e : Event) : Except String History :=
  match e.type with
  | .userMessage => do
    let d ← atEvent e.seq (MessageData.unmarshal e.data)
    return h.addMessage d.message
  | .assistantMessage => do
    let d ← atEvent e.seq (MessageData.unmarshal e.data)
    if d.message.content = [] then return h else return h.addMessage d.message
  | .toolResult => do
    let d ← atEvent e.seq (ToolResultData.unmarshal e.data)
    let _ ← atEvent e.seq (validateToolContent d)
    return h.addResult l e.seq d
  | _ => .ok h

def replay (l : Ledger) (events : List Event) : Except String History :=
  events.foldlM (replayEvent l) ⟨[],[],[]⟩

/-- How many keyed compactions name a result the history does not hold under their call id. -/
def countIgnored (l : Ledger) (results : List ResultRef) : ℕ :=
  let held := results.foldl (fun (m : Table ℤ CallID) r => m.set r.seq r.id) Table.empty
  (l.bySeq.entries.filter (fun e => held.get e.1 ≠ some e.2.id)).length

/-- The full replay of a log's events. -/
def rebuildProjection (events : List Event) : Except String Projection := do
  let l ← collectLedger events
  let h ← replay l events
  return ⟨l,h,true,countIgnored l h.results⟩

/-- What an append hands to the warm projection: the decoded payload, when it has one. -/
inductive Projected where
  | nothing
  | message (d : MessageData)
  | result (d : ToolResultData)

/-- Fold one appended event into the warm projection. -/
def extendProjection (p : Projection) (t : EventType) (seq : ℤ) (payload : Projected) :
    Projection :=
  match t with
  | .toolResultCompacted => { p with valid := false }
  | .userMessage => match payload with
    | .message d =>
      if p.valid then { p with toHistory := p.toHistory.addMessage d.message } else p
    | _ => { p with valid := false }
  | .assistantMessage => match payload with
    | .message d =>
      if d.message.content = [] then p
      else if p.valid then { p with toHistory := p.toHistory.addMessage d.message } else p
    | _ => { p with valid := false }
  | .toolResult => match payload with
    | .result d =>
      if p.valid then { p with toHistory := p.toHistory.addResult p.toLedger seq d } else p
    | _ => { p with valid := false }
  | _ => p

/-- An append-only event log. The sequence number is held, because a restored log may begin
partway through a session. -/
structure Log where
  events : List Event
  turn : ℤ
  step : ℤ
  seq : ℤ
  scrub : Option (String → String)
  withholdChunks : Bool
  proj : Projection

def emptyProjection : Projection := ⟨⟨Table.empty,Table.empty⟩,⟨[],[],[]⟩,false,0⟩

def newLog : Log := ⟨[],0,0,0,none,false,emptyProjection⟩

/-- What json.Marshal makes of an append's payload: nil, an encoding error, or a document. -/
abbrev Payload := Option (Except String Json)

namespace Log

def setScrubber (l : Log) (scrub : String → String) : Log := { l with scrub := some scrub }

def setSensitiveScrubber (l : Log) (scrub : String → String) : Log :=
  { l with scrub := some scrub, withholdChunks := true }

/-- The id a compaction must answer, read from the result it names. -/
def resultID : Option Json → Except String CallID :=
  decodeWith (Json.storeInto [Json.stringField "tool_call_id" id fun _ s => s] "")

/-- Refuse a compaction that names a result the log does not hold under that call id. -/
def checkCompaction (events : List Event) (c : CompactionData) : Except String Unit :=
  if c.resultSeq = 0 then .ok ()
  else match events[events.findIdx (fun e => e.seq ≥ c.resultSeq)]? with
    | none => .error s!"session: compaction names result seq {c.resultSeq}, which is not a tool result in this log"
    | some e =>
      if e.seq ≠ c.resultSeq ∨ e.type ≠ .toolResult then
        .error s!"session: compaction names result seq {c.resultSeq}, which is not a tool result in this log"
      else do
        let id ← atEvent c.resultSeq (resultID e.data)
        if id ≠ c.toolCallID then
          .error s!"session: compaction of call {c.toolCallID} names result seq {c.resultSeq}, which answers call {id}"
        else return ()

/-- The bytes an append persists: encoded, withheld and scrubbed. -/
def encodePayload (l : Log) (t : EventType) (payload : Payload) : Except String (Option Json) := do
  let raw : Option Json ← match payload with
    | none => .ok none
    | some encoded => (during s!"encoding {t.name}" encoded).map some
  let raw := if t = .assistantChunk ∧ l.withholdChunks then
    some (.obj [("withheld",.bool true)]) else raw
  match l.scrub, raw with
  | some f, some j => do return some (← during s!"scrubbing {t.name}" (scrubPayload t j f)).1
  | _, raw => return raw

/-- What an append decodes from the bytes it persists, before it takes the write lock. -/
def decodePayload (events : List Event) (t : EventType) (raw : Option Json) :
    Except String Projected :=
  match t with
  | .toolResultCompacted => do
    let c ← during s!"decoding {t.name}" (CompactionData.unmarshal raw)
    let _ ← checkCompaction events c
    return .nothing
  | .userMessage => do
    return .message (← during s!"decoding {t.name}" (MessageData.unmarshal raw))
  | .assistantMessage => do
    return .message (← during s!"decoding {t.name}" (MessageData.unmarshal raw))
  | .toolResult => do
    let d ← during s!"decoding {t.name}" (ToolResultData.unmarshal raw)
    let _ ← validateToolContent d
    return .result d
  | _ => return .nothing

/-- Turn and step numbers after an event of the type. -/
def advance (t : EventType) (turn step : ℤ) : ℤ × ℤ :=
  match t with
  | .turnStart => (turn+1,0)
  | .stepStart => (turn,step+1)
  | _ => (turn,step)

/-- Record an event, or refuse it and leave the log as it was. -/
def append (l : Log) (t : EventType) (payload : Payload) : Except String (Log × Event) := do
  let raw ← l.encodePayload t payload
  let _ ← Event.publicData t raw
  let projected ← decodePayload l.events t raw
  let ts := advance t l.turn l.step
  let event : Event := ⟨l.seq+1,t,ts.1,ts.2,raw⟩
  return ({ l with
    events := l.events ++ [event]
    turn := ts.1
    step := ts.2
    seq := l.seq+1
    proj := extendProjection l.proj t (l.seq+1) projected },event)

/-- Warm the projection when a compaction or a restore left it cold. -/
def warm (l : Log) : Except String Log :=
  if l.proj.valid then .ok l
  else do return { l with proj := ← rebuildProjection l.events }

/-- The projected history, shared with the projection. -/
def projected (l : Log) : Except String (List Message × Log) := do
  let w ← l.warm
  return (w.proj.derived,w)

/-- The message history a model request is built from, as an owned copy. -/
def deriveMessages (l : Log) : Except String (List Message × Log) := do
  let p ← l.projected
  let copied ← cloneMessages p.1
  return (copied,p.2)

/-- The call ids whose results are compacted by a record that names only the id. -/
def compactedCalls (l : Log) : Except String (List CallID) :=
  if l.proj.valid then .ok l.proj.compacted.keys
  else l.events.foldlM (fun out e =>
    if e.type = .toolResultCompacted then do
      let c ← atEvent e.seq (CompactionData.unmarshal e.data)
      if c.resultSeq = 0 then return out ++ [c.toolCallID] else return out
    else .ok out) []

end Log

/-- The key of each result in order: its call id, and its place among those with that id. -/
def numbered {α : Type} (id : α → CallID) : List CallID → List α → List (ResultKey × α)
  | _,[] => []
  | seen,a :: rest => (⟨id a,seen.count (id a)+1⟩,a) :: numbered id (id a :: seen) rest

namespace Log

/-- The results compacted by a record that names its result. -/
def compactedResults (l : Log) : Except String (List ResultKey × Log) := do
  let w ← l.warm
  let keyed := (numbered ResultRef.id [] w.proj.results).filter (fun k =>
    (w.proj.bySeq.get k.2.seq).any (fun c => c.id = k.2.id))
  return (keyed.map Prod.fst,w)

/-- The call ids of the tool results a history carries, in order. -/
def resultIDs (msgs : List Message) : List CallID :=
  msgs.flatMap (fun m => m.content.filterMap (fun b =>
    match b with | .toolResult id _ _ => some id | _ => none))

/-- Whether a history carries exactly the log's results, by call id and in order. -/
def holdsResults (l : Log) (msgs : List Message) : Except String (Bool × Log) := do
  let w ← l.warm
  return (resultIDs msgs = w.proj.results.map ResultRef.id,w)

def ignoredCompactions (l : Log) : Except String (ℕ × Log) := do
  let w ← l.warm
  return (w.proj.ignored,w)

/-- Resolve result keys to the sequence numbers of their events, refusing a key the log does
not hold. -/
def resultSeqs (l : Log) (keys : List ResultKey) : Except String (List ℤ × Log) := do
  let w ← l.warm
  let byKey := numbered ResultRef.id [] w.proj.results
  let seqs ← keys.mapM (fun key =>
    match byKey.find? (fun k => k.1 = key) with
    | some k => .ok k.2.seq
    | none => .error s!"session: no tool result {key.occurrence} of call {key.id} in this log")
  return (seqs,w)

end Log

/-- How far the check of restored events has come. -/
structure Restoring where
  index : ℕ
  last : ℤ
  turn : ℤ
  step : ℤ

/-- Check one restored event against the ones before it. -/
def checkRestored (r : Restoring) (e : Event) : Except String Restoring :=
  if e.type.name = "" then .error s!"session: restored event {r.index} has no type"
  else if e.seq ≤ r.last then
    .error s!"session: restored event {r.index} has sequence {e.seq}, which does not follow {r.last}"
  else if e.turn < r.turn then
    .error s!"session: restored event {r.index} (seq {e.seq}) belongs to turn {e.turn}, which precedes turn {r.turn}"
  else .ok ⟨r.index+1,e.seq,e.turn,e.step⟩

/-- Rebuild a log from recorded events, refusing any that does not project. -/
def restoreLog (events : List Event) : Except String Log := do
  let r ← events.foldlM checkRestored ⟨0,0,0,0⟩
  let l : Log := ⟨events,r.turn,r.step,r.last,none,false,emptyProjection⟩
  let derived ← l.deriveMessages
  return derived.2

/-- Whether an event of the type is part of the history a request replays. -/
def shapesHistory : EventType → Bool
  | .userMessage | .assistantMessage | .toolResult | .toolResultCompacted => true
  | _ => false

/-- Sanitize one imported event; edited says that an earlier message was rewritten. -/
def sanitizeEvent (scrub : String → String) (edited : Bool) (e : Event) :
    Except String (Event × Bool) :=
  if e.type = .assistantChunk then .ok ({ e with data := some (.obj [("withheld",.bool true)]) },
    edited)
  else match e.data with
    | none => .ok (e,edited)
    | some j => do
      let data ← if edited ∧ e.type = .assistantMessage then
        during "sanitizing restored event" (dropPrefixInvalidatedReasoning j) else .ok j
      let r ← during "sanitizing restored event" (scrubPayload e.type data scrub)
      return ({ e with data := some r.1 },edited || (r.2 && shapesHistory e.type))

def sanitizeEvents (scrub : String → String) : Bool → List Event → Except String (List Event)
  | _,[] => .ok []
  | edited,e :: rest => do
    let r ← sanitizeEvent scrub edited e
    let clean ← sanitizeEvents scrub r.2 rest
    return r.1 :: clean

/-- Sanitize imported events before their first projection. -/
def restoreSensitiveLog (events : List Event) (scrub : String → String) : Except String Log := do
  let clean ← sanitizeEvents scrub false events
  let log ← restoreLog clean
  return log.setSensitiveScrubber scrub

end Manvi.Session
