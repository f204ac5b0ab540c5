import Manvi.Encoding.Space
import Manvi.Encoding.Table

/-! A client that speaks to a server over its standard streams: requests wait for their replies in a
table, and one reader hands out what the server writes. -/
namespace Manvi.Mcp
open Manvi.Encoding

/-- The id of a reply as it was decoded: a number is the float64 that JSON reads. -/
inductive ReplyId
  | null
  | number (v : ℚ)
  | text (s : Bytes)
  | other
  deriving DecidableEq

/-- The integer that an id stands for. -/
def numericID : ReplyId → Option Int64
  | .number v => if v.den = 1 ∧ -2^63 ≤ v.num ∧ v.num < 2^63 then some (Int64.ofInt v.num) else none
  | .text s => (parseInt64 (trimSpace s)).map Int64.ofInt
  | _ => none

structure RPCError where
  code : ℤ
  message : Bytes
  data : Bytes
  deriving DecidableEq

structure Response where
  jsonrpc : String
  id : ReplyId
  result : Bytes
  error : Option RPCError
  deriving DecidableEq

/-- What a line of the server's output decodes to. -/
inductive Decoded
  | unreadable
  | invalid
  | frame (resp : Response) (method : String) (hasPayload : Bool)
  deriving DecidableEq

/-- Why every request that waits is failed. -/
inductive Reason
  | discarded
  | notJSONRPC
  | unread (err : RPCError)
  | unmatched
  deriving DecidableEq

/-- What a reply channel carries: what the server wrote, or what the client made up. -/
inductive Reply
  | server (resp : Response)
  | synthetic (reason : Reason)
  deriving DecidableEq

/-- Whether some bytes open like a JSON object. -/
def looksLikeRPCFrame (line : Bytes) : Bool :=
  (line.dropWhile (fun b => b = 32 ∨ b = 9 ∨ b = 13 ∨ b = 10)).head? = some 123

/-- Where a line goes. -/
inductive Route
  | ignored
  | serverFrame (method : String)
  | failAll (reason : Reason)
  | reply (id : Int64) (resp : Response)
  deriving DecidableEq

def route (decodeFrame : Bytes → Decoded) (line : Bytes) : Route :=
  match decodeFrame line with
  | .unreadable => .ignored
  | .invalid => if looksLikeRPCFrame line then .failAll .notJSONRPC else .ignored
  | .frame resp method hasPayload =>
    if method ≠ "" then .serverFrame method
    else if hasPayload = false ∧ resp.jsonrpc = "" then .ignored
    else match numericID resp.id with
      | some id => .reply id resp
      | none => match resp.id,resp.error with
        | .null,some err => .failAll (.unread err)
        | _,_ => .failAll .unmatched

/-- A channel with room for one reply. -/
structure Chan where
  buffer : Option Reply
  closed : Bool
  deriving DecidableEq

/-- A send goes through unless the channel is full, where it blocks, or closed, where it panics. -/
def Chan.send (c : Chan) (reply : Reply) : Option Chan :=
  if c.closed then none else match c.buffer with
    | none => some { c with buffer := some reply }
    | some _ => none

inductive Kind
  | call
  | handshake
  deriving DecidableEq

inductive SendErr
  | closedClient
  | exited
  | encoding
  | writing
  | uncertain
  deriving DecidableEq

/-- How the wait for a reply ends. -/
inductive Outcome
  | sendFailed (err : SendErr)
  | ctxEnded
  | serverExited
  | aborted
  | cut
  | replied (reply : Reply)
  deriving DecidableEq

/-- How far a request has got. One that is leaving still has to be forgotten. -/
inductive Phase
  | idle
  | begun
  | opened
  | live
  | numbered
  | registered
  | waiting
  | leaving (o : Outcome)
  | returned (o : Outcome)
  deriving DecidableEq

structure Request where
  kind : Kind
  id : Int64
  phase : Phase
  ctxEnded : Bool
  deriving DecidableEq

/-- How the write of a request ends. One that took too long may have been delivered. -/
inductive WriteEnd
  | ok
  | failed
  | uncertain
  deriving DecidableEq

/-- The steps of a request that concern no other one. -/
inductive Move
  | checkClosed
  | checkDone
  | encodeFails
  | write (w : WriteEnd)
  | seeDone
  | seeCtx
  | abort
  | endCtx
  deriving DecidableEq

/-- What a request does by itself, as the client is closed or not, its output has ended or not, and
its channel has something or not. -/
def Request.move (q : Request) (closed done ready : Bool) : Move → Option Request
  | .checkClosed => if q.phase = .begun then
      some { q with phase := if closed then .returned (.sendFailed .closedClient) else .opened }
      else none
  | .checkDone => if q.phase = .opened then
      some { q with phase := if done then .returned (.sendFailed .exited) else .live } else none
  | .encodeFails => if q.phase = .numbered then
    some { q with phase := .returned (.sendFailed .encoding) } else none
  | .write w => if q.phase = .registered then
      some { q with phase := match w with
        | .ok => .waiting
        | .failed => .leaving (.sendFailed .writing)
        | .uncertain => .leaving (.sendFailed .uncertain) } else none
  | .seeDone => if q.phase = .waiting ∧ done ∧ (q.kind = .call ∨ ready = false) then
      some { q with phase := .returned .serverExited } else none
  | .seeCtx => if q.phase = .waiting ∧ q.kind = .call ∧ q.ctxEnded then
    some { q with phase := .leaving .ctxEnded } else none
  | .abort => if q.phase = .waiting ∧ q.kind = .handshake ∧ closed then
    some { q with phase := .leaving .aborted } else none
  | .endCtx => some { q with ctxEnded := true }

inductive Reader
  | reading
  | delivering (r : ℕ) (resp : Response)
  | failing (left : List ℕ) (reason : Reason)
  | ended
  | flushed
  | finished
  deriving DecidableEq

/-- What the reader takes from the stream: a line, or the opening of one that was too long. -/
inductive Item
  | line (bytes : Bytes)
  | tooLarge (opening : Bytes)
  deriving DecidableEq

/-- The state of a client. What was heard, which reply was routed to a request in time and how often
one was sent to it are kept for reference. -/
structure Client where
  reqCounter : Int64
  pending : Table Int64 ℕ
  requests : ℕ → Request
  chans : ℕ → Chan
  reader : Reader
  closed : Bool
  heard : List Bytes
  routed : ℕ → Option Response
  sends : ℕ → ℕ

namespace Client

def start : Client where
  reqCounter := 0
  pending := Table.empty
  requests := fun _ => ⟨.call,0,.idle,false⟩
  chans := fun _ => ⟨none,false⟩
  reader := .reading
  closed := false
  heard := []
  routed := fun _ => none
  sends := fun _ => 0

def failAllPending (c : Client) (reason : Reason) : Client :=
  { c with reader := .failing c.pending.values reason, pending := Table.empty }

/-- Hand a reply to the request that waits for it. -/
def deliverTo (c : Client) (id : Int64) (resp : Response) : Client :=
  match c.pending.get id with
  | none => c
  | some r => { c with
      pending := c.pending.erase id
      reader := .delivering r resp
      routed := if (c.requests r).ctxEnded then
        c.routed else Function.update c.routed r (some resp) }

def dispatch (decodeFrame : Bytes → Decoded) (c : Client) (line : Bytes) : Client :=
  let c := { c with heard := c.heard ++ [line] }
  match route decodeFrame line with
  | .ignored => c
  | .serverFrame _ => c
  | .failAll reason => c.failAllPending reason
  | .reply id resp => c.deliverTo id resp

/-- One turn of the reader. -/
def read (decodeFrame : Bytes → Decoded) (c : Client) : Item → Client
  | .line bytes => if bytes = [] then c else c.dispatch decodeFrame bytes
  | .tooLarge opening => if looksLikeRPCFrame opening then c.failAllPending .discarded else c

/-- Send a reply on the channel of a request. -/
def sendTo (c : Client) (r : ℕ) (reply : Reply) (reader : Reader) : Option Client :=
  ((c.chans r).send reply).map (fun chan => { c with
    chans := Function.update c.chans r chan
    reader := reader
    sends := Function.update c.sends r (c.sends r+1) })

/-- Close the channels of all requests that still wait. -/
def flush (c : Client) : Client := { c with
  pending := Table.empty
  chans := fun r => if r ∈ c.pending.values then { c.chans r with closed := true } else c.chans r
  reader := .flushed }

def setRequest (c : Client) (r : ℕ) (q : Request) : Client :=
  { c with requests := Function.update c.requests r q }

@[simp] lemma setRequest_self (c : Client) (r : ℕ) (q : Request) :
    (c.setRequest r q).requests r = q := Function.update_self _ _ _

lemma setRequest_of_ne (c : Client) {r r' : ℕ} (q : Request) (h : r' ≠ r) :
    (c.setRequest r q).requests r' = c.requests r' :=
  Function.update_of_ne h _ _

end Client

inductive Action
  | read (item : Item)
  | deliver
  | fail (r : ℕ)
  | resume
  | eof
  | flush
  | finish
  | close
  | begin (r : ℕ) (kind : Kind)
  | move (r : ℕ) (m : Move)
  | number (r : ℕ)
  | register (r : ℕ)
  | receive (r : ℕ)
  | forget (r : ℕ)
  deriving DecidableEq

/-- What arrives on a channel, if it is ready. -/
def Chan.receive (chan : Chan) : Option (Outcome × Chan) :=
  match chan.buffer with
  | some reply => some (.replied reply,{ chan with buffer := none })
  | none => if chan.closed then some (.cut,chan) else none

def Chan.ready (chan : Chan) : Bool := chan.receive.isSome

namespace Client

/-- One step of the reader or of a request. -/
def step (decodeFrame : Bytes → Decoded) (c : Client) : Action → Option Client
  | .read item => if c.reader = .reading then some (c.read decodeFrame item) else none
  | .deliver => match c.reader with
    | .delivering r resp => c.sendTo r (.server resp) .reading
    | _ => none
  | .fail r => match c.reader with
    | .failing left reason => if r ∈ left then
      c.sendTo r (.synthetic reason) (.failing (left.erase r) reason) else none
    | _ => none
  | .resume => match c.reader with
    | .failing [] _ => some { c with reader := .reading }
    | _ => none
  | .eof => if c.reader = .reading then some { c with reader := .ended } else none
  | .flush => if c.reader = .ended then some c.flush else none
  | .finish => if c.reader = .flushed then some { c with reader := .finished } else none
  | .close => some { c with closed := true }
  | .begin r kind => if (c.requests r).phase = .idle then
      some (c.setRequest r { c.requests r with kind := kind, phase := .begun }) else none
  | .move r m => ((c.requests r).move c.closed (c.reader = .finished) (c.chans r).ready m).map
      (fun q => { c.setRequest r q with closed := c.closed || m = .write .uncertain })
  | .number r => if (c.requests r).phase = .live then
      some ({ c with reqCounter := c.reqCounter+1 }.setRequest r { c.requests r with
        id := c.reqCounter+1, phase := .numbered })
      else none
  | .register r => if (c.requests r).phase = .numbered then
      some ({ c with pending := c.pending.set (c.requests r).id r }.setRequest r { c.requests r with
        phase := .registered })
      else none
  | .receive r => if (c.requests r).phase = .waiting then (c.chans r).receive.map (fun p =>
      { c.setRequest r { c.requests r with phase := .returned p.1 } with
        chans := Function.update c.chans r p.2 })
      else none
  | .forget r => match (c.requests r).phase with
    | .leaving o => some ({ c with pending := c.pending.erase (c.requests r).id }.setRequest r
        { c.requests r with phase := .returned o })
    | _ => none

def run (decodeFrame : Bytes → Decoded) (c : Client) : List Action → Option Client
  | [] => some c
  | a :: as => (c.step decodeFrame a).bind (fun c => c.run decodeFrame as)

end Client

/-- What a call returns: the result of the reply, or why there is none. -/
inductive CallErr
  | failed (o : Outcome)
  | serverError (err : RPCError)
  | client (reason : Reason)
  | unmarshal
  deriving DecidableEq

/-- Turn what arrived into the result of a call. Whether its caller can decode a result is a
parameter. -/
def replyResult (decodes : Bytes → Bool) : Outcome → Except CallErr Bytes
  | .replied (.server resp) => match resp.error with
    | some err => .error (.serverError err)
    | none => if resp.result ≠ [] ∧ decodes resp.result = false then .error .unmarshal
      else .ok resp.result
  | .replied (.synthetic reason) => .error (.client reason)
  | o => .error (.failed o)

end Manvi.Mcp
