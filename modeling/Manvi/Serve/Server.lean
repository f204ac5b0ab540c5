import Manvi.Encoding.Json

/-! The host plane over one stdio pair: a read loop that answers what is cheap, and lanes that run
the rest. -/
namespace Manvi.Serve
open Manvi.Encoding

/-- The bound of one request line, its terminator included. -/
def maxLineBytes : ℕ := 8388608

/-- How much of an oversized line is kept. -/
def idHeadBytes : ℕ := 4096

/-- How many requests a lane holds beyond the one it runs. -/
def laneQueue : ℕ := 32

/-- What the reader hands on: a line, or the head of one that is too large. -/
inductive Read where
  | line (bytes : List UInt8)
  | oversized (head : List UInt8)
  deriving Repr, DecidableEq

def trimSuffixByte (b : List UInt8) (c : UInt8) : List UInt8 :=
  if b.getLast? = some c then b.dropLast else b

def trimNewline (b : List UInt8) : List UInt8 := trimSuffixByte (trimSuffixByte b 10) 13

/-- A line as it stands in the input, with its terminator if it has one. -/
def lineRead (max : ℕ) (raw : List UInt8) : Read :=
  if max < raw.length then .oversized (raw.take idHeadBytes) else .line (trimNewline raw)

/-- The lines of an input; the bytes of the present one are collected in reverse. Where the input
ends in a fault, a last line without a terminator is dropped unless it is too large already. -/
def readLines (max : ℕ) (faulty : Bool) : List UInt8 → List UInt8 → List Read
  | [],[] => []
  | b :: held,[] =>
    if faulty ∧ (b :: held).length ≤ max then [] else [lineRead max (b :: held).reverse]
  | held,c :: rest =>
    if c = 10 then lineRead max (c :: held).reverse :: readLines max faulty [] rest
    else readLines max faulty (c :: held) rest

structure Request where
  id : String
  op : String
  params : List UInt8
  deriving Repr, DecidableEq

structure Failure where
  code : String
  message : String
  retryable : Bool
  deriving Repr, DecidableEq

structure Response where
  id : String
  ok : Bool
  result : Option Json
  error : Option Failure

def badRequest (message : String) : Failure := ⟨"E_BAD_REQUEST",message,false⟩

def opHello : String := "hello"
def opPolicyCheckFile : String := "policy.check.file"
def opPolicyCheckCommand : String := "policy.check.command"
def opCapabilityProbe : String := "capability.probe"
def opLocalScan : String := "local.scan"
def opChatPrepare : String := "chat.prepare"
def opChatSettle : String := "chat.settle"
def opChatForget : String := "chat.forget"
def opManagedStop : String := "work.runs.managed.stop"
def opManagedWake : String := "work.runs.managed.wake"
def opManagedFollow : String := "work.runs.managed.follow"
def opWorkRefine : String := "work.enhancements.refine"

/-- The names of the lanes. -/
inductive LaneName where
  | localProbe
  | refine
  | devmap
  | scan
  | managed
  | work
  | modules
  deriving Repr, DecidableEq

def LaneName.text : LaneName → String
  | .localProbe => "local"
  | .refine => "refine"
  | .devmap => "devmap"
  | .scan => "scan"
  | .managed => "managed"
  | .work => "work"
  | .modules => "module"

def laneNames : List LaneName := [.localProbe,.refine,.devmap,.scan,.managed,.work,.modules]

/-- The lane an operation runs on; none for one that is answered inline. -/
def laneFor (op : String) : Option LaneName :=
  if op ∈ [opHello,opPolicyCheckFile,opPolicyCheckCommand,opChatPrepare,opChatSettle,opChatForget,
      opManagedStop,opManagedWake,opManagedFollow] then none
  else if op = opCapabilityProbe ∨ op = opLocalScan then some .localProbe
  else if op = opWorkRefine then some .refine
  else if "devmap.".toList <+: op.toList then some .devmap
  else if "work.scan.".toList <+: op.toList then some .scan
  else if "work.runs.managed.".toList <+: op.toList then some .managed
  else if "work.".toList <+: op.toList then some .work
  else some .modules

/-- A server as it is configured: the operations it serves, how it decodes a line and what it
recovers of the head of one that is too large. -/
structure Config where
  handlers : List String
  decode : List UInt8 → Except String Request
  recoverID : List UInt8 → String
  configErr : Option String

/-- How a handler ends: in a panic, with an error, or with a result that is encoded or cannot be. -/
inductive Outcome where
  | panicked (value : String)
  | failed (error : Failure)
  | returned (encoded : Except String Json)

namespace Config
variable (cfg : Config)

/-- The lane of an operation that is served; the refusal of another one is inline. -/
def laneOf (op : String) : Option LaneName := if op ∈ cfg.handlers then laneFor op else none

/-- The names of the operations in the order in which a refusal lists them. -/
def operations : List String := cfg.handlers.mergeSort (fun a b => a ≤ b)

def handle (req : Request) (o : Outcome) : Outcome :=
  let served := " ".intercalate cfg.operations
  if req.op ∈ cfg.handlers then o
  else .failed (badRequest s!"unknown op {repr req.op} (this build serves: [{served}])")

/-- The one response to a request whose handler ended so. -/
def dispatch (req : Request) (o : Outcome) : Response :=
  match cfg.handle req o with
  | .panicked value => ⟨req.id,false,none,some ⟨"E_INTERNAL",
      s!"the harness failed while serving this request: {value}; this is a defect in manvi, not in the request",false⟩⟩
  | .failed e => ⟨req.id,false,none,some e⟩
  | .returned (.error e) => ⟨req.id,false,none,some ⟨"E_INTERNAL",s!"encoding {req.op} result: {e}",
    false⟩⟩
  | .returned (.ok encoded) => ⟨req.id,true,some encoded,none⟩

end Config

/-- The answer to a request its lane cannot take. -/
def busy (req : Request) (lane : LaneName) : Response :=
  ⟨req.id,false,none,some ⟨"E_BUSY",
    s!"the {lane.text} lane already has {laneQueue} requests waiting; retry when an earlier one is answered",true⟩⟩

/-- What the read loop makes of a line. -/
inductive Incoming where
  | blank
  | refused (response : Response) (flushes : Bool)
  | lane (name : LaneName) (req : Request)
  | inline (req : Request)

def Config.incoming (cfg : Config) : Read → Incoming
  | .oversized head => .refused ⟨cfg.recoverID head,false,none,some ⟨"E_TOO_LARGE",
      s!"request line exceeds {maxLineBytes} bytes; send fewer messages or compact first",
      false⟩⟩ true
  | .line [] => .blank
  | .line (b :: bytes) => match cfg.decode (b :: bytes) with
    | .error e => .refused ⟨"",false,none,some (badRequest s!"malformed request line: {e}")⟩ false
    | .ok req =>
      if req.id = "" then .refused ⟨"",false,none,some (badRequest
        "request is missing an id; a response the host cannot route is indistinguishable from a hang")⟩ false
      else match cfg.laneOf req.op with
        | some name => .lane name req
        | none => .inline req

/-- What a lane is doing. -/
inductive Work where
  | waiting
  | running (line : ℕ) (req : Request)
  | flushing
  deriving Repr, DecidableEq

structure Lane where
  queue : List (ℕ × Request)
  work : Work
  deriving Repr, DecidableEq

/-- The requests of a lane that are not answered yet, the one it runs first. -/
def Lane.pending (l : Lane) : List (ℕ × Request) :=
  match l.work with
  | .running i req => (i,req) :: l.queue
  | _ => l.queue

/-- Who wrote a response. -/
inductive Via where
  | refusal
  | inline
  | busy (lane : LaneName)
  | lane (lane : LaneName)
  deriving Repr, DecidableEq

/-- A response that was written, with the line that it answers. -/
structure Answer where
  line : ℕ
  via : Via
  response : Response

inductive Ended where
  | eof
  | cancelled
  | failed (error : String)
  deriving Repr, DecidableEq

inductive ServeError where
  | config (error : String)
  | write
  | read (error : String)
  deriving Repr, DecidableEq

/-- Where the read loop is. -/
inductive Loop where
  | reading
  | dispatching (line : ℕ) (req : Request)
  | flushing
  | closing (ended : Ended)
  | draining (ended : Option Ended) (err : Option ServeError)
  | returned (ended : Option Ended) (err : Option ServeError)
  deriving Repr, DecidableEq

structure State where
  rest : List Read
  fault : Option String
  line : ℕ
  loop : Loop
  lanes : LaneName → Lane
  closed : Bool
  answers : List Answer
  flushed : ℕ
  broken : Bool
  laneErr : Bool
  ran : List (LaneName × ℕ)

/-- An input: its bytes, and the error that ends it when it is not the end of the input. -/
structure Input where
  bytes : List UInt8
  fault : Option String

def Input.reads (input : Input) : List Read :=
  readLines maxLineBytes input.fault.isSome [] input.bytes

def start (cfg : Config) (input : Input) : State :=
  ⟨input.reads,input.fault,0,
    match cfg.configErr with
    | none => .reading
    | some e => .returned none (some (.config e)),
    fun _ => ⟨[],.waiting⟩,false,[],0,false,false,[]⟩

namespace State

/-- One line goes to the writer, which keeps its first failure. -/
def write (s : State) (a : Answer) (wrote : Bool) : State :=
  if s.broken then s else if wrote then { s with answers := s.answers ++ [a] } else { s with
    broken := true }

/-- Everything written goes out, or the writer has failed. -/
def flush (s : State) (sent : Bool) : State :=
  if s.broken then s else if sent then { s with flushed := s.answers.length } else { s with
    broken := true }

def setLane (s : State) (name : LaneName) (lane : Lane) : State :=
  { s with lanes := Function.update s.lanes name lane }

/-- A lane that has nothing left to do. -/
def quiet (s : State) (name : LaneName) : Bool :=
  (s.lanes name).queue = [] && (s.lanes name).work = .waiting

end State

/-- What may happen next: a step of the read loop, or one of a lane. -/
inductive Act where
  | receive (wrote : Bool)
  | answer (outcome : Outcome) (wrote : Bool)
  | flush (sent : Bool)
  | cancel
  | drain
  | leave (sent : Bool)
  | begin (lane : LaneName)
  | finish (lane : LaneName) (outcome : Outcome) (wrote : Bool)
  | flushLane (lane : LaneName) (sent : Bool)

/-- The loop takes a line. -/
def receive (cfg : Config) (s : State) (read : Read) (wrote : Bool) : State :=
  let i := s.line
  let s := { s with rest := s.rest.tail, line := s.line+1 }
  match cfg.incoming read with
  | .blank => s
  | .refused response flushes =>
    { s.write ⟨i,.refusal,response⟩ wrote with loop := if flushes then .flushing else .reading }
  | .lane name req =>
    if s.closed ∨ laneQueue ≤ (s.lanes name).queue.length then
      { s.write ⟨i,.busy name,busy req name⟩ wrote with loop := .flushing }
    else s.setLane name { s.lanes name with queue := (s.lanes name).queue ++ [(i,req)] }
  | .inline req => { s with loop := .dispatching i req }

/-- One step of a server, when it is the turn of one that may be taken. -/
def step (cfg : Config) (s : State) : Act → Option State
  | .receive wrote => if s.loop = .reading then
      match s.rest with
      | [] => match s.fault with
        | none => some { s with loop := .closing .eof }
        | some e => some { s with loop := .closing (.failed e) }
      | read :: _ => some (receive cfg s read wrote)
    else none
  | .answer outcome wrote => match s.loop with
    | .dispatching i req => some { s.write ⟨i,.inline,cfg.dispatch req outcome⟩ wrote with
      loop := .flushing }
    | _ => none
  | .flush sent => match s.loop with
    | .flushing =>
      let s := s.flush sent
      some { s with loop := if s.broken then .draining none (some .write) else .reading }
    | .closing ended =>
      let s := s.flush sent
      some { s with loop := .draining (some ended) (match ended with
        | .failed e => some (.read e)
        | _ => if s.broken then some .write else none) }
    | _ => none
  | .cancel => if s.loop = .reading then some { s with loop := .closing .cancelled } else none
  | .drain => match s.loop with
    | .draining _ _ => some { s with closed := true }
    | _ => none
  | .leave sent => match s.loop with
    | .draining ended err =>
      if s.closed ∧ laneNames.all s.quiet then
        let s := s.flush sent
        some { s with
          loop := .returned ended (err.or (if s.broken ∨ s.laneErr then some .write else none)) }
      else none
    | _ => none
  | .begin name => match (s.lanes name).work,(s.lanes name).queue with
    | .waiting,(i,req) :: queue =>
      some { s.setLane name ⟨queue,.running i req⟩ with ran := s.ran ++ [(name,i)] }
    | _,_ => none
  | .finish name outcome wrote => match (s.lanes name).work with
    | .running i req =>
      let t := s.write ⟨i,.lane name,cfg.dispatch req outcome⟩ wrote
      some (t.setLane name { s.lanes name with work := .flushing })
    | _ => none
  | .flushLane name sent =>
    if (s.lanes name).work = .flushing then
      let t := s.flush sent
      some { t.setLane name { s.lanes name with work := .waiting } with
        laneErr := t.laneErr || t.broken }
    else none

/-- The states that a server can be in. -/
inductive Reaches (cfg : Config) (input : Input) : State → Prop
  | start : Reaches cfg input (start cfg input)
  | step {s t : State} (h : Reaches cfg input s) (act : Act) (ht : step cfg s act = some t) :
      Reaches cfg input t

end Manvi.Serve
