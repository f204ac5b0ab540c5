import Manvi.Encoding.Markers
import Manvi.Encoding.Space

/-! The filter that separates inline reasoning from visible text, over bytes that arrive in
deltas. -/
namespace Manvi.OpenAICompat
open Manvi.Encoding

def openTags : List Bytes := [ascii "<think>",ascii "<thought>"]

def closeTags : List Bytes := [ascii "</think>",ascii "</thought>"]

def toolCallOpen : Bytes := ascii "<tool_call>"

def toolCallClose : Bytes := ascii "</tool_call>"

/-- The tags whose beginnings are held back while tags are interpreted. -/
def carryTags : List Bytes := openTags ++ closeTags ++ [toolCallOpen]

def longestCarryTag : ℕ := carryTags.foldl (fun longest t => max longest t.length) 0

structure FilteredChunk where
  text : Bytes
  reasoning : Bytes
  deriving DecidableEq

structure TagFilter where
  depth : ℤ
  inThink : Bool
  carry : Bytes
  resolved : Bool
  prefillSuspected : Bool
  assumePrefill : Bool
  started : Bool
  assumed : Bool
  visibleTail : Bytes
  inToolCall : Bool
  deriving DecidableEq

/-- The last bytes of a run. -/
def lastBytes (n : ℕ) (s : Bytes) : Bytes := s.drop (s.length-n)

/-- Whether deleting framing between these two runs would splice a marker into existence. -/
def wouldFuse (before after : Bytes) : Bool :=
  let before := lastBytes (longestCarryTag-1) before
  let after := after.take (longestCarryTag-1)
  if before.isEmpty || after.isEmpty then false
  else
    let joined := before ++ after
    carryTags.any (fun t => (List.range (joined.length+1-t.length)).any (fun i =>
      (joined.drop i).take t.length = t ∧ i < before.length ∧ before.length < i+t.length))

namespace TagFilter

def new (assumePrefill : Bool) : TagFilter :=
  ⟨0,false,[],false,false,assumePrefill,false,false,[],false⟩

/-- Record a chunk, keeping the last bytes handed to the visible channel. -/
def emit (f : TagFilter) (c : FilteredChunk) : TagFilter :=
  let n := longestCarryTag-1
  if c.text.isEmpty then f
  else if 0 < n ∧ n ≤ c.text.length then { f with visibleTail := lastBytes n c.text }
  else { f with visibleTail := lastBytes n (f.visibleTail ++ c.text) }

/-- Label a run of bytes with whichever side of the filter is open. -/
def classify (f : TagFilter) (s : Bytes) : FilteredChunk := if f.inThink then ⟨[],s⟩ else ⟨s,[]⟩

/-- Emit a run of bytes, if there is any. -/
def put (f : TagFilter) (s : Bytes) : TagFilter × List FilteredChunk :=
  if s.isEmpty then (f,[]) else (f.emit (f.classify s),[f.classify s])

/-- The end of a tool-call block, whose bytes keep the side they were opened on. -/
def closeToolCall (f : TagFilter) (before tag : Bytes) : TagFilter × List FilteredChunk :=
  let c := f.classify (before ++ tag)
  ({ f.emit c with inToolCall := false },[c])

/-- A tool-call opener suspends tag interpretation; the marker itself is emitted. -/
def openToolCall (f : TagFilter) (before tag : Bytes) : TagFilter × List FilteredChunk :=
  let r := f.put before
  ({ r.1.emit (r.1.classify tag) with inToolCall := true },r.2 ++ [r.1.classify tag])

/-- A closing tag with nothing open is dropped, unless that would splice a marker into being. -/
def strayClose (f : TagFilter) (before tag rest : Bytes) : TagFilter × List FilteredChunk :=
  let f := if f.resolved then f else { f with resolved := true, prefillSuspected := true }
  if wouldFuse (f.visibleTail ++ before) rest then (f.emit ⟨before ++ tag,[]⟩,[⟨before ++ tag,[]⟩])
  else f.put before

def openThink (f : TagFilter) (before : Bytes) : TagFilter × List FilteredChunk :=
  let r := { f with resolved := true, assumed := false }.put before
  ({ r.1 with inThink := true, depth := 1 },r.2)

def nestThink (f : TagFilter) (before : Bytes) : TagFilter × List FilteredChunk :=
  let r := f.put before
  ({ r.1 with depth := r.1.depth+1 },r.2)

def closeThink (f : TagFilter) (before : Bytes) : TagFilter × List FilteredChunk :=
  let r := f.put before
  let depth := r.1.depth-1
  (if depth ≤ 0 then { r.1 with depth := 0, inThink := false, assumed := false, resolved := true }
    else { r.1 with depth := depth, resolved := true },r.2)

/-- No tag is left: emit what cannot begin one, and carry the rest over. -/
def settle (f : TagFilter) (data : Bytes) (tags : List Bytes) : TagFilter × List FilteredChunk :=
  let n := partialSuffix data tags
  if 0 < n then
    let r := f.put (data.take (data.length-n))
    ({ r.1 with carry := data.drop (data.length-n) },r.2)
  else f.put data

/-- One pass over the data: up to the first tag, and what is left of the data after it. -/
def advance (f : TagFilter) (data : Bytes) : (TagFilter × List FilteredChunk) × Option Bytes :=
  if f.inToolCall then
    match index data toolCallClose with
    | some i => (f.closeToolCall (data.take i) ((data.drop i).take toolCallClose.length),
        some (data.drop (i+toolCallClose.length)))
    | none => (f.settle data [toolCallClose],none)
  else
    let tool := index data toolCallOpen
    let close := findFirst data closeTags
    let opened := findFirst data openTags
    match tool.filter (fun i => opened.all (fun o => i < o.1) ∧ close.all (fun c => i < c.1)) with
    | some i => (f.openToolCall (data.take i) ((data.drop i).take toolCallOpen.length),
        some (data.drop (i+toolCallOpen.length)))
    | none =>
      if f.inThink then
        match opened.filter (fun o => close.all (fun c => o.1 < c.1)),close with
        | some (i,l),_ => (f.nestThink (data.take i),some (data.drop (i+l)))
        | none,some (i,l) => (f.closeThink (data.take i),some (data.drop (i+l)))
        | none,none => (f.settle data carryTags,none)
      else
        match close.filter (fun c => opened.all (fun o => c.1 < o.1)),opened with
        | some (i,l),_ => (f.strayClose (data.take i) ((data.drop i).take l) (data.drop (i+l)),
            some (data.drop (i+l)))
        | none,some (i,l) => (f.openThink (data.take i),some (data.drop (i+l)))
        | none,none => (f.settle data carryTags,none)

/-- Passes over the data while any is left; each that finds a tag consumes it. -/
def loop : ℕ → TagFilter → Bytes → TagFilter × List FilteredChunk
  | 0,f,_ => (f,[])
  | n+1,f,data =>
    if data.isEmpty then (f,[])
    else match f.advance data with
      | (r,none) => r
      | (r,some rest) => ((loop n r.1 rest).1,r.2 ++ (loop n r.1 rest).2)

/-- Apply a declared prefill at the first delta. -/
def start (f : TagFilter) : TagFilter :=
  if f.started then f
  else if f.assumePrefill then
    { f with started := true, inThink := true, depth := 1, resolved := true, assumed := true }
  else { f with started := true }

def feed (f : TagFilter) (raw : Bytes) : TagFilter × List FilteredChunk :=
  let data := f.start.carry ++ raw
  loop data.length { f.start with carry := [] } data

/-- Release whatever is still held when the stream ends. -/
def flush (f : TagFilter) : FilteredChunk :=
  if f.carry.isEmpty then ⟨[],[]⟩ else f.classify f.carry

/-- The visible text and the reasoning of some chunks. -/
def shown (out : List FilteredChunk) : Bytes × Bytes :=
  (out.flatMap FilteredChunk.text,out.flatMap FilteredChunk.reasoning)

/-- Feed the deltas one by one. -/
def feedAll (f : TagFilter) : List Bytes → TagFilter × List FilteredChunk
  | [] => (f,[])
  | d :: deltas => (((f.feed d).1.feedAll deltas).1,(f.feed d).2 ++ ((f.feed d).1.feedAll deltas).2)

/-- What a stream shows once it has been fed and flushed. -/
def streamed (f : TagFilter) (deltas : List Bytes) : Bytes × Bytes :=
  shown ((f.feedAll deltas).2 ++ [(f.feedAll deltas).1.flush])

end TagFilter

/-- Separate inline reasoning from visible text in a finished response. The third result reports an
unmatched closing tag. -/
def splitReasoning (text : Bytes) (assumePrefill : Bool) : Bytes × Bytes × Bool :=
  if text.isEmpty then ([],[],false)
  else
    let r := (TagFilter.new assumePrefill).feed text
    let out := TagFilter.shown (r.2 ++ [r.1.flush])
    (out.1,out.2,r.1.prefillSuspected)

end Manvi.OpenAICompat
