import Manvi.Mcp.Client

/-! The handshake of a session: one flight asks the server for all callers, and tells it once that
the session is initialized. -/
namespace Manvi.Mcp
open Manvi.Encoding

def protocolVersionLatest : String := "2025-11-25"

/-- The revisions this client talks. -/
def handshakeVersions : List String :=
  ["2024-11-05","2025-03-26","2025-06-18",protocolVersionLatest]

def codeInvalidParams : ℤ := -32602

/-- How results and error data of the server are decoded: the revision of an initialize result, and
the revisions that the data of an error lists. -/
structure Codec where
  decodeFrame : Bytes → Decoded
  version : Bytes → Option String
  supported : Bytes → Option (List String)

/-- The revision for a second request, after the error that lists what the server supports. -/
def Codec.retryVersion (codec : Codec) (err : RPCError) : Option String :=
  if err.code ≠ codeInvalidParams then none
  else match codec.supported err.data with
    | none => none
    | some versions => match (versions.filter (· ∈ handshakeVersions)).max? with
      | none => none
      | some newest => if newest = protocolVersionLatest then none else some newest

/-- How a handshake ends: with a session, with an error after which it may be tried again, or for
good. -/
inductive FlightEnd
  | ok (version : String)
  | failed
  | fatal
  deriving DecidableEq

inductive Flight
  | unborn
  | starting (second : Bool) (version : String)
  | asking (second : Bool) (r : ℕ)
  | accepted (r : ℕ) (version : String)
  | notifying (r : ℕ) (version : String)
  | concluded (e : FlightEnd)
  | published (e : FlightEnd)
  | done (e : FlightEnd)
  deriving DecidableEq

/-- What a flight makes of how its request ended. -/
def Codec.conclude (codec : Codec) (second : Bool) (r : ℕ) : Outcome → Flight
  | .replied (.synthetic _) => .concluded .fatal
  | .replied (.server resp) => match resp.error with
    | some err => if second then .concluded .failed else match codec.retryVersion err with
      | some version => .starting true version
      | none => .concluded .failed
    | none => match (if resp.result = [] then some "" else codec.version resp.result) with
      | none => .concluded .fatal
      | some version => if version ∈ handshakeVersions then .accepted r version
        else .concluded .fatal
  | _ => .concluded .failed

/-- One that asks for a session: it waits for a flight, and then may call. -/
inductive Caller
  | idle
  | waiting (f : ℕ)
  | ready
  | failed
  | calling (r : ℕ)
  deriving DecidableEq

/-- A client with its handshake. The initialize requests that were written, which requests came from
callers that had asked for a session, and how often the server was notified are kept for
reference. -/
structure Session where
  client : Client
  initResult : Option String
  initFatal : Bool
  initFlight : Option ℕ
  flights : ℕ → Flight
  callers : ℕ → Caller
  written : List ℕ
  tools : List ℕ
  notified : ℕ

namespace Session

def start : Session where
  client := Client.start
  initResult := none
  initFatal := false
  initFlight := none
  flights := fun _ => .unborn
  callers := fun _ => .idle
  written := []
  tools := []
  notified := 0

def setFlight (s : Session) (f : ℕ) (flight : Flight) : Session :=
  { s with flights := Function.update s.flights f flight }

def setCaller (s : Session) (k : ℕ) (caller : Caller) : Session :=
  { s with callers := Function.update s.callers k caller }

end Session

inductive SessionAction
  | client (a : Action)
  | enter (k f : ℕ)
  | ask (f r : ℕ)
  | conclude (f : ℕ)
  | checkNotify (f : ℕ)
  | notify (f : ℕ) (w : WriteEnd)
  | publish (f : ℕ)
  | finish (f : ℕ)
  | wake (k : ℕ)
  | leave (k : ℕ)
  | call (k r : ℕ)
  deriving DecidableEq

/-- The request that a step writes to the server, in full as far as the client knows. -/
def Action.writes : Action → Option ℕ
  | .move r (.write .ok) => some r
  | .move r (.write .uncertain) => some r
  | _ => none

namespace Session

/-- The initialize requests written before and after a step of the client. -/
def writtenBy (s : Session) (a : Action) : List ℕ :=
  match a.writes with
  | some r => if (s.client.requests r).kind = .handshake then s.written ++ [r] else s.written
  | none => s.written

/-- A caller that asks for a session: there is one, there will be none, it waits for the flight, or
it sends one off. -/
def enter (s : Session) (k f : ℕ) : Option Session :=
  match s.initResult with
  | some _ => some (s.setCaller k .ready)
  | none => if s.initFatal then some (s.setCaller k .failed) else match s.initFlight with
    | some f => some (s.setCaller k (.waiting f))
    | none => if s.flights f = .unborn then
        some ({ s with initFlight := some f }.setFlight f
          (.starting false protocolVersionLatest) |>.setCaller k (.waiting f))
        else none

/-- Hand the end of a flight to all that ask. -/
def publish (s : Session) (f : ℕ) (e : FlightEnd) : Session :=
  { s.setFlight f (.published e) with
    initResult := match e with
      | .ok version => some version
      | _ => s.initResult
    initFatal := s.initFatal || e = .fatal
    initFlight := none }

def step (codec : Codec) (s : Session) : SessionAction → Option Session
  | .client (.begin _ .handshake) => none
  | .client a => (s.client.step codec.decodeFrame a).map (fun c => { s with
    client := c, written := s.writtenBy a })
  | .enter k f => if s.callers k = .idle then s.enter k f else none
  | .ask f r => match s.flights f with
    | .starting second _ => (s.client.step codec.decodeFrame (.begin r .handshake)).map
        (fun c => { s.setFlight f (.asking second r) with client := c })
    | _ => none
  | .conclude f => match s.flights f with
    | .asking second r => match (s.client.requests r).phase with
      | .returned o => some (s.setFlight f (codec.conclude second r o))
      | _ => none
    | _ => none
  | .checkNotify f => match s.flights f with
    | .accepted r version => some (s.setFlight f
        (if s.client.closed ∨ s.client.reader = .finished then .concluded .fatal
          else .notifying r version))
    | _ => none
  | .notify f w => match s.flights f with
    | .notifying _ version =>
      some { s.setFlight f (.concluded (if w = .ok then .ok version else .fatal)) with
        notified := if w = .failed then s.notified else s.notified+1
        client := { s.client with closed := s.client.closed || w = .uncertain } }
    | _ => none
  | .publish f => match s.flights f with
    | .concluded e => some (s.publish f e)
    | _ => none
  | .finish f => match s.flights f with
    | .published e => some (s.setFlight f (.done e))
    | _ => none
  | .wake k => match s.callers k with
    | .waiting f => match s.flights f with
      | .done (.ok _) => some (s.setCaller k .ready)
      | .done _ => some (s.setCaller k .failed)
      | _ => none
    | _ => none
  | .leave k => match s.callers k with
    | .waiting _ => some (s.setCaller k .failed)
    | _ => none
  | .call k r => match s.callers k with
    | .ready => (s.client.step codec.decodeFrame (.begin r .call)).map
        (fun c => { s.setCaller k (.calling r) with client := c, tools := s.tools ++ [r] })
    | _ => none

def run (codec : Codec) (s : Session) : List SessionAction → Option Session
  | [] => some s
  | a :: as => (s.step codec a).bind (fun s => s.run codec as)

end Session

end Manvi.Mcp
