import Manvi.Desktop.Contracts

/-! The desktop broker: sessions, the helpers that work for them, and the loop that serves requests,
helper completions and deadlines. -/
namespace Manvi.Desktop
open Manvi.Encoding

def observationTTL : ℕ := 120000
def maxSessions : ℕ := 16
def maxHelpers : ℕ := 4
def maxRequests : ℕ := 100000
def maxActions : ℕ := 4096
def maxApprovals : ℕ := 16
def maxVisualTargets : ℕ := 64
def maxReadOnlyTargets : ℕ := 64

/-- The decimal digits of a number. -/
def decimal (n : ℕ) : String := String.ofList ((Json.natDigits n).map Json.digitChar)

/-- A fresh identity: its kind, the time, and the broker's counter. -/
def identity (kind : String) (stamp counter : ℕ) : String :=
  kind ++ "-" ++ decimal stamp ++ "-" ++ decimal counter

structure Session where
  runID : String
  epoch : ℕ
  paused : Bool
  window : Json
  observation : Option Observation
  inputStamp : Option Json
  visualTargets : Table String (VisualMatch × Json)
  readOnlyTargets : List Selector
  approvals : Table String String
  actions : Table String (String × Response)
  pending : Option String

/-- A helper at work. -/
structure Pending where
  request : Request
  binding : Option String

/-- What a helper is asked to do. -/
structure Worker where
  op : Op
  attach : Option Attach
  window : Option Json
  action : Option Action
  target : Option ResolvedTarget
  visualAnchor : Option Json
  capture : Option Json
  observationID : Option String
  expectedState : Option String
  expectedNodes : Option (List Node)
  expectedInput : Option Json

def makeWorker (op : Op) : Worker := ⟨op,none,none,none,none,none,none,none,none,none,none⟩

/-- A target an action was admitted for, with the tree it was found in and the selectors of the
session. -/
structure Aim where
  target : ResolvedTarget
  nodes : List Node
  readOnlyTargets : List Selector

/-- Input to an aim takes an approval unless it reads an element that a read-only selector resolves
to. -/
def needsApproval (codec : Codec) (aim : Aim) (effect : Effect) : Bool :=
  match aim.target with
  | .visual _ => true
  | .semantic node => effect = .change || !aim.readOnlyTargets.any (fun s =>
      match resolve codec aim.nodes s with
      | .ok n => n.id = node.id
      | .error _ => false)

/-- What a broker did, for the record. -/
inductive Record where
  | approved (id : String) (use : Use)
  | started (use : Use) (aim : Aim) (worker : Worker)
  | observed (session : String)
  | focused (session : String)
  | paused (session : String)
  | resumed (session : String)
  | finished (session : String)

/-- The broker. The responses it wrote and its record stand newest first; `read` holds the
identities its responses are due to. -/
structure Broker where
  sessions : Table String Session
  pending : Table String Pending
  ids : List String
  counter : ℕ
  lease : Bool
  out : List Response
  record : List Record
  read : List String
  ended : Bool

def start : Broker := ⟨.empty,.empty,[],0,false,[],[],[],false⟩

/-- What the system answers during one turn of the loop: the clock, and the failures of its
calls. -/
structure Env where
  now : ℕ
  stamp : ℕ
  exe : Option DesktopError
  spawn : Option DesktopError
  lease : Option DesktopError
  terminate : Option DesktopError
  relay : Option DesktopError
  write : Option DesktopError

/-- The answer to a request, if it has one yet. -/
abbrev Answer := Except DesktopError (Option Json)

namespace Session

/-- Drop what an observation allowed. -/
def clear (s : Session) : Session :=
  { s with observation := none, inputStamp := none, visualTargets := .empty, approvals := .empty }

def observed (env : Env) (s : Session) (id : String) : Except DesktopError Observation :=
  match s.observation.filter (fun o => o.observationID = id) with
  | none => .error (err "stale_observation" "Observe the window again before resolving or acting")
  | some o =>
    if observationTTL < env.now-o.capturedAtMS then
      .error (err "stale_observation" "Observation age exceeded the allowed limit")
    else .ok o

/-- Remember the response to an action under its identity. -/
def journal (codec : Codec) (operation : Pending) (response : Response) (s : Session) : Session :=
  match operation.binding,codec.decodeAction operation.request.payload with
  | some binding,.ok action => { s with
    actions := s.actions.set action.actionID (binding,response) }
  | _,_ => s

def suspendExternalInteraction (response : Response) (s : Session) : Session :=
  if response.error.any (fun e => e.code = "external_interaction") then
    { s.clear with paused := true } else s

end Session

def ownsInput (r : Request) : Bool :=
  r.op.acts || r.op = .focus || (r.op = .attach &&
    match get r.payload "focus" with
    | some (.bool b) => b
    | _ => false)

namespace Broker

def put (sid : String) (s : Session) (b : Broker) : Broker :=
  { b with sessions := b.sessions.set sid s }

def note (e : Record) (b : Broker) : Broker := { b with record := e :: b.record }

def inputOwned (b : Broker) : Bool := b.pending.values.any (fun p => ownsInput p.request)

/-- A response within the byte limit. -/
def bounded (codec : Codec) (response : Response) : Response :=
  if codec.tooLarge response then
    .failure response.id (err "response_limit" "Response exceeded the byte limit")
  else response

/-- Write a response that a failed write loses. -/
def output (codec : Codec) (response : Response) (failed : Option DesktopError) (b : Broker) :
    Except DesktopError Broker :=
  match failed with
  | some e => .error e
  | none => .ok { b with out := bounded codec response :: b.out }

/-- The loop's own writes end the broker when they fail. -/
def answer (codec : Codec) (env : Env) (response : Response) (b : Broker) : Broker :=
  match b.output codec response env.write with
  | .error _ => { b with ended := true }
  | .ok b => b

def releaseIdleLease (b : Broker) : Broker :=
  if b.sessions.size = 0 && b.pending.values.all (fun p => p.request.op = .probe) then
    { b with lease := false }
  else b

/-- Start a helper and enter it for its request. -/
def launch (env : Env) (r : Request) (w : Worker) (binding : Option String) (b : Broker) :
    Except DesktopError Broker :=
  match env.exe with
  | some e => .error e
  | none =>
    if w.op ≠ .probe ∧ b.lease = false then
      .error (err "input_lease" "Attached native work requires an input lease")
    else match env.spawn with
      | some e => .error e
      | none => .ok { b with pending := b.pending.set r.id ⟨r,binding⟩ }

end Broker

def context (b : Broker) (r : Request) : Except DesktopError (String × Session) :=
  match r.sessionID with
  | none => .error (err "session_required" "A session ID is required")
  | some sid =>
    match b.sessions.get sid with
    | none => .error (err "session_missing" "Session does not exist in this broker instance")
    | some s =>
      if r.runID ≠ some s.runID then .error (err "run_mismatch" "Session belongs to another run")
      else if r.epoch ≠ some s.epoch then .error (err "stale_epoch" "Control epoch changed")
      else .ok (sid,s)

/-- Start a helper that works for a session. -/
def launchFor (env : Env) (r : Request) (sid : String) (s : Session) (w : Worker)
    (binding : Option String)
    (e : List Record) (b : Broker) : Answer × Broker :=
  match b.launch env r w binding with
  | .error failure => (.error failure,b)
  | .ok b => (.ok none,{ b.put sid { s with pending := some r.id } with record := e ++ b.record })

namespace Dispatch

def probe (env : Env) (r : Request) (b : Broker) : Answer × Broker :=
  match b.launch env r (makeWorker .probe) none with
  | .error e => (.error e,b)
  | .ok b => (.ok none,b)

/-- Read-only selectors are valid and name no pixels. -/
def checkPolicy (codec : Codec) : List Selector → Except DesktopError Unit
  | [] => .ok ()
  | s :: rest =>
    match s.validate codec with
    | .error e => .error e
    | .ok _ =>
      if s.visual.isSome then .error
        (err "invalid_policy" "Visual input always requires explicit approval")
      else checkPolicy codec rest

def admitAttach (codec : Codec) (r : Request) (b : Broker) : Except DesktopError Attach :=
  if maxSessions ≤ b.sessions.size+(b.pending.values.filter
    (fun p => p.request.op = .attach)).length then
    .error (err "session_limit" "Session limit reached")
  else if r.runID.all (fun s => s = "" || 160 < s.utf8ByteSize) then
    .error (err "run_required" "Attach requires a bounded run_id")
  else match codec.decodeAttach r.payload with
    | .error e => .error e
    | .ok a =>
      if maxReadOnlyTargets < a.readOnlyTargets.length then
        .error (err "policy_limit" "Too many read-only target selectors")
      else match checkPolicy codec a.readOnlyTargets with
        | .error e => .error e
        | .ok _ =>
          if a.focus && b.inputOwned then
            .error (err "input_owned" "Another operation currently owns desktop input")
          else .ok a

def takeLease (env : Env) (b : Broker) : Except DesktopError Broker :=
  if b.lease then .ok b
  else match env.lease with
    | some e => .error e
    | none => .ok { b with lease := true }

def attach (codec : Codec) (env : Env) (r : Request) (b : Broker) : Answer × Broker :=
  match admitAttach codec r b with
  | .error e => (.error e,b)
  | .ok a =>
    match takeLease env b with
    | .error e => (.error e,b)
    | .ok b =>
      match b.launch env r { makeWorker .attach with attach := some a } none with
      | .error e => (.error e,b)
      | .ok b => (.ok none,b)

/-- The end of a pause or a detach: the next epoch, under human control. -/
def transfer (r : Request) (sid : String) (s : Session) (uncertain : Bool) (b : Broker) :
    Answer × Broker :=
  if s.epoch+1 < 2^64 then
    let s := { s.clear with epoch := s.epoch+1, paused := true }
    let b := (b.put sid s).note (.paused sid)
    let result := Json.obj [("epoch",.ofInt s.epoch),("paused",.bool true),
      ("uncertain_delivery",.bool uncertain)]
    (.ok (some result),if r.op = .detach then { b with sessions := b.sessions.erase sid } else b)
  else (.error (err "epoch_exhausted" "Control epoch exhausted"),b.put sid s)

def cancelled (operation : Pending) : Response :=
  let e := err "cancelled" "Native operation cancelled during control transfer"
  .failure operation.request.id (if operation.request.op.acts then e.uncertain else e)

/-- Pause or detach: the session's helper, if one is at work, is terminated and its request answered
first. -/
def interrupt (codec : Codec) (env : Env) (r : Request) (sid : String) (s : Session) (b : Broker) :
    Answer × Broker :=
  match s.pending with
  | none => transfer r sid s false b
  | some id =>
    let s := { s with pending := none }
    match b.pending.get id with
    | none => transfer r sid s false b
    | some operation =>
      let b := { b with pending := b.pending.erase id }
      match env.terminate with
      | some e => (.error e,b.put sid s)
      | none =>
        let response := cancelled operation
        let s := s.journal codec operation response
        match (b.put sid s).output codec response env.relay with
        | .error e => (.error e,b.put sid s)
        | .ok b => transfer r sid s operation.request.op.acts b

def focus (env : Env) (r : Request) (sid : String) (s : Session) (b : Broker) : Answer × Broker :=
  if b.inputOwned then
    (.error (err "input_owned" "Another native operation currently owns desktop input"),b)
  else
    launchFor env r sid s.clear { makeWorker .focus with
      window := some s.window } none [.focused sid]
      (b.put sid s.clear)

def observe (env : Env) (r : Request) (sid : String) (s : Session) (b : Broker) : Answer × Broker :=
  launchFor env r sid s { makeWorker .observe with
    window := some s.window, expectedInput := if s.paused then none else s.inputStamp } none [] b

/-- What a resolve request comes to: an element at once, or work for a helper. -/
inductive Resolution where
  | element (node : Node)
  | pixels (w : Worker)

def admitResolve (codec : Codec) (env : Env) (r : Request) (s : Session) :
    Except DesktopError Resolution :=
  match codec.decodeSelection r.payload with
  | .error e => .error e
  | .ok (observationID,selector) =>
    match s.observed env observationID with
    | .error e => .error e
    | .ok observed =>
      if !observed.complete then
        .error (err "observation_incomplete" "Cannot claim selector uniqueness from a truncated tree")
      else match selector.validate codec with
        | .error e => .error e
        | .ok _ =>
          match selector.visual with
          | some anchor =>
            if r.op ≠ .resolveTarget then
              .error (err "visual_target_required" "Visual anchors require resolve_target")
            else if maxVisualTargets ≤ s.visualTargets.size then
              .error (err "target_limit" "Visual target cache is full; observe again")
            else .ok (.pixels { makeWorker .resolveTarget with
              window := some observed.window, capture := some observed.screenshot,
              observationID := some observationID, visualAnchor := some anchor })
          | none =>
            match resolve codec observed.nodes selector with
            | .error e => .error e
            | .ok node => .ok (.element node)

def resolve (codec : Codec) (env : Env) (r : Request) (sid : String) (s : Session) (b : Broker) :
    Answer × Broker :=
  match admitResolve codec env r s with
  | .error e => (.error e,b)
  | .ok (.pixels w) => launchFor env r sid s w none [] b
  | .ok (.element node) =>
    if r.op = .resolveTarget then
      (.ok (some (.obj [("kind",.str "semantic"),("node",codec.encodeNode node)])),b)
    else (.ok (some (.obj [("target_id",.str node.id),("node",codec.encodeNode node)])),b)

def resume (codec : Codec) (env : Env) (r : Request) (sid : String) (s : Session) (b : Broker) :
    Answer × Broker :=
  match codec.decodeResume r.payload with
  | .error e => (.error e,b)
  | .ok observationID =>
    match s.observed env observationID with
    | .error e => (.error e,b)
    | .ok _ =>
      if !s.paused then (.error (err "not_paused" "Session is already controlled by automation"),b)
      else if s.epoch+1 < 2^64 then
        let s := { s with
          paused := false, epoch := s.epoch+1, observation := none, visualTargets := .empty,
                          approvals := .empty }
        (.ok (some (.obj [("epoch",.ofInt s.epoch),("paused",.bool false)])),
          (b.put sid s).note (.resumed sid))
      else (.error (err "epoch_exhausted" "Control epoch exhausted"),
        b.put sid { s with paused := false })

/-- The target of an action and the anchor it was found by. -/
def aimAt (s : Session) (observed : Observation) (a : Action) :
    Except DesktopError (ResolvedTarget × Option Json) :=
  match s.visualTargets.get a.targetID with
  | some (visual,anchor) =>
    if a.kind ≠ .click ∨ a.x.isSome ∨ a.y.isSome ∨ a.text.isSome ∨ a.scrollY.isSome then
      .error (err "invalid_action" "Visual targets accept only their bound click offset")
    else .ok (.visual visual,some anchor)
  | none =>
    match observed.nodes.find? (fun n => n.id = a.targetID) with
    | none => .error (err "target_missing" "Target does not belong to this observation")
    | some node => .ok (.semantic node,none)

/-- The aim of an admitted action and the worker that would carry it out. -/
def admitAction (codec : Codec) (env : Env) (op : Op) (s : Session) (a : Action) :
    Except DesktopError (Aim × Worker) :=
  if op = .act ∧ s.paused = true then
    .error (err "human_control" "Automation is paused; resume requires a fresh observation")
  else if op = .humanAct ∧ s.paused = false then
    .error (err "automation_control" "Human input requires pausing automation first")
  else match s.observed env a.observationID with
    | .error e => .error e
    | .ok observed =>
      if !observed.complete then
        .error (err "observation_incomplete" "Cannot act using an incomplete observation")
      else match codec.stateFingerprint observed.nodes with
        | .error e => .error e
        | .ok state =>
          match aimAt s observed a with
          | .error e => .error e
          | .ok (target,anchor) =>
            .ok (⟨target,observed.nodes,s.readOnlyTargets⟩,
              { makeWorker .act with
                window := some s.window, action := some a, target := some target, visualAnchor :=
                  anchor,
                expectedState := some state, expectedNodes := some observed.nodes,
                expectedInput := s.inputStamp })

def approve (codec : Codec) (env : Env) (sid : String) (s : Session) (use : Use) (b : Broker) :
    Answer × Broker :=
  if maxApprovals ≤ s.approvals.size then
    (.error (err "approval_limit" "Approval limit reached; observe again to invalidate old approvals"),b)
  else
    let n := b.counter+1
    let id := identity "approval" env.stamp n
    let s := { s with approvals := s.approvals.set id (use.binding codec) }
    (.ok (some (.obj [("approval_id",.str id),("epoch",.ofInt s.epoch),("single_use",.bool true)])),
      { (b.put sid s).note (.approved id use) with counter := n })

/-- Take an approval out of the session. -/
def takeApproval (s : Session) : Option String → Option String × Session
  | none => (none,s)
  | some id => (s.approvals.get id,{ s with approvals := s.approvals.erase id })

def perform (codec : Codec) (env : Env) (r : Request) (sid : String) (s : Session) (use : Use)
    (aim : Aim)
    (w : Worker) (b : Broker) : Answer × Broker :=
  if b.inputOwned then (.error (err "input_owned" "Another session currently owns desktop input"),b)
  else
    let needed := needsApproval codec aim use.action.effect
    let taken := if needed then takeApproval s use.action.approvalID
      else (some (use.binding codec),s)
    let b := b.put sid taken.2
    if taken.1 ≠ some (use.binding codec) then
      (.error (err "approval_required" "A single-use approval for this exact action is required"),b)
    else if maxActions ≤ s.actions.size then
      (.error (err "action_limit" "Session action journal is full; start a new session"),b)
    else launchFor env r sid taken.2 w (some (use.binding codec)) [.started use aim w] b

/-- The journal's answer to an action whose identity was used before. -/
def replay (codec : Codec) (env : Env) (r : Request) (binding : String) (entry : String × Response)
    (b : Broker) : Answer × Broker :=
  if entry.1 ≠ binding then
    (.error (err "action_id_conflict" "Action ID was already used with different inputs or context"),b)
  else match b.output codec { entry.2 with id := r.id } env.relay with
    | .error e => (.error e,b)
    | .ok b => (.ok none,b)

def action (codec : Codec) (env : Env) (r : Request) (sid : String) (s : Session) (b : Broker) :
    Answer × Broker :=
  match codec.decodeAction r.payload with
  | .error e => (.error e,b)
  | .ok a =>
    match a.validate with
    | .error e => (.error e,b)
    | .ok _ =>
      let use : Use := ⟨sid,s.runID,s.epoch,a⟩
      match (if r.op.acts then s.actions.get a.actionID else none) with
      | some entry => replay codec env r (use.binding codec) entry b
      | none =>
        match admitAction codec env r.op s a with
        | .error e => (.error e,b)
        | .ok (aim,w) =>
          if r.op = .approve then approve codec env sid s use b
          else perform codec env r sid s use aim w b

/-- A request of a session that no helper is at work for. -/
def idle (codec : Codec) (env : Env) (r : Request) (sid : String) (s : Session) (b : Broker) :
    Answer × Broker :=
  match r.op with
  | .focus => focus env r sid s b
  | .observe => observe env r sid s b
  | .resolve | .resolveTarget => resolve codec env r sid s b
  | .resume => resume codec env r sid s b
  | .approve | .act | .humanAct => action codec env r sid s b
  | _ => (.error (err "unknown_operation" "Unknown broker operation"),b)

def withSession (codec : Codec) (env : Env) (r : Request) (b : Broker) : Answer × Broker :=
  match context b r with
  | .error e => (.error e,b)
  | .ok (sid,s) =>
    if r.op.interrupts then interrupt codec env r sid s b
    else if s.pending.isSome then
      (.error (err "session_busy" "A native operation is already in progress for this session"),b)
    else idle codec env r sid s b

end Dispatch

def dispatch (codec : Codec) (env : Env) (r : Request) (b : Broker) : Answer × Broker :=
  if r.id = "" ∨ 160 < r.id.utf8ByteSize then
    (.error (err "invalid_id" "Request ID must be nonempty and bounded"),b)
  else if maxHelpers ≤ b.pending.size ∧ r.op.interrupts = false then
    (.error (err "broker_busy" "Native helper concurrency limit reached"),b)
  else match r.op with
    | .probe => Dispatch.probe env r b
    | .attach => Dispatch.attach codec env r b
    | _ => Dispatch.withSession codec env r b

namespace Completed

def attach (codec : Codec) (env : Env) (r : Request) (value : Json) (b : Broker) :
    Except DesktopError Json × Broker :=
  match codec.decodeWindow value with
  | .error e => (.error e,b)
  | .ok window =>
    match codec.decodeAttach r.payload with
    | .error e => (.error e,b)
    | .ok a =>
      let n := b.counter+1
      let id := identity "session" env.stamp n
      match r.runID with
      | none => (.error (err "run_required" "Missing run ID"),{ b with counter := n })
      | some run =>
        let s : Session := ⟨run,1,false,window,none,none,.empty,a.readOnlyTargets,.empty,
          .empty,none⟩
        (.ok (.obj [("session_id",.str id),("epoch",.ofInt 1),("window",window)]),
          { b.put id s with counter := n })

def focus (codec : Codec) (sid : String) (s : Session) (value : Json) (b : Broker) :
    Except DesktopError Json × Broker :=
  match codec.decodeWindow value with
  | .error e => (.error e,b)
  | .ok window =>
    (.ok (.obj [("window",window),("epoch",.ofInt s.epoch)]),b.put sid { s with window := window })

/-- The anchor a resolve request was made with, if its observation still stands. -/
def anchorOf (codec : Codec) (env : Env) (r : Request) (s : Session) : Except DesktopError Json :=
  match get r.payload "selector" with
  | none => .error (err "invalid_request" "Selector required")
  | some v =>
    match codec.decodeSelector v with
    | .error e => .error e
    | .ok selector =>
      match selector.visual with
      | none => .error (err "invalid_request" "Visual anchor required")
      | some anchor =>
        match get r.payload "observation_id" with
        | some (.str id) =>
          match s.observed env id with
          | .error e => .error e
          | .ok _ => .ok anchor
        | _ => .error (err "invalid_request" "Observation identity required")

def resolveTarget (codec : Codec) (env : Env) (r : Request) (sid : String) (s : Session)
    (value : Json)
    (b : Broker) : Except DesktopError Json × Broker :=
  match codec.decodeTarget value with
  | .error e => (.error e,b)
  | .ok (.semantic _) => (.error
    (err "invalid_target" "Visual helper returned a semantic target"),b)
  | .ok (.visual found) =>
    match anchorOf codec env r s with
    | .error e => (.error e,b)
    | .ok anchor =>
      let n := b.counter+1
      let found := { found with targetID := identity "visual" env.stamp n }
      match codec.encodeVisual { found with frameSHA256 := "" } with
      | .error e => (.error e,{ b with counter := n })
      | .ok shown => (.ok shown,
          { b.put sid { s with visualTargets := s.visualTargets.set found.targetID (found,anchor) } with
            counter := n })

def observe (codec : Codec) (env : Env) (sid : String) (s : Session) (value : Json) (b : Broker) :
    Except DesktopError Json × Broker :=
  match codec.decodeObservation value with
  | .error e => (.error e,b)
  | .ok seen =>
    let n := b.counter+1
    let s := { s with inputStamp := seen.inputStamp, window := seen.window, approvals := .empty,
                      visualTargets := .empty }
    let seen := { seen with observationID := identity "observation" env.stamp n, epoch := s.epoch,
                            inputStamp := none }
    match codec.encodeObservation seen with
    | .error e => (.error e,{ b.put sid s with counter := n })
    | .ok shown => (.ok shown,
        { (b.put sid { s with observation := some seen }).note (.observed sid) with counter := n })

/-- What the broker makes of a helper's value. -/
def accept (codec : Codec) (env : Env) (r : Request) (value : Json) (b : Broker) :
    Except DesktopError Json × Broker :=
  if r.op = .attach then attach codec env r value b
  else match r.sessionID with
    | none => (.ok value,b)
    | some sid =>
      match b.sessions.get sid with
      | none => (.error (err "session_missing" "Session was detached"),b)
      | some s =>
        if r.epoch ≠ some s.epoch then
          (.error (err "stale_epoch" "Native response belongs to an old control epoch"),b)
        else match r.op with
          | .focus => focus codec sid s value b
          | .resolveTarget => resolveTarget codec env r sid s value b
          | .observe => observe codec env sid s value b
          | _ => (.ok value,b)

def settle (codec : Codec) (env : Env) (r : Request) (result : Except DesktopError Json)
    (b : Broker) :
    Except DesktopError Json × Broker :=
  match result with
  | .error e => (.error e,b)
  | .ok value => accept codec env r value b

def responseTo (r : Request) : Except DesktopError Json → Response
  | .ok value => .success r.id value
  | .error e => .failure r.id (if r.op.acts && "helper_".isPrefixOf e.code then e.uncertain else e)

/-- What a finished helper leaves in its session. -/
def conclude (codec : Codec) (operation : Pending) (response : Response) (b : Broker) : Broker :=
  match operation.request.sessionID with
  | none => b
  | some sid =>
    match b.sessions.get sid with
    | none => b
    | some s =>
      let s := { s with pending := none }.suspendExternalInteraction response
      if operation.request.op.acts then
        (b.put sid ({ s with
          observation := none, visualTargets := .empty, approvals := .empty }.journal codec
          operation response)).note (.finished sid)
      else b.put sid s

end Completed

def completed (codec : Codec) (env : Env) (operation : Pending) (result : Except DesktopError Json)
    (b : Broker) : Broker :=
  match env.terminate with
  | some _ => { b with ended := true }
  | none =>
    let settled := Completed.settle codec env operation.request result b
    let response := Completed.responseTo operation.request settled.1
    ((Completed.conclude codec operation response settled.2).releaseIdleLease).answer codec env
    response

/-- What the loop receives: a request, a frame that is none, a helper's result, a helper's deadline,
the end. -/
inductive Event where
  | request (r : Request)
  | invalid (e : DesktopError)
  | done (id : String) (result : Except DesktopError Json)
  | timeout (id : String)
  | eof

namespace Broker

def serveRequest (codec : Codec) (env : Env) (r : Request) (b : Broker) : Broker :=
  let b := { b with read := r.id :: b.read }
  if maxRequests ≤ b.ids.length then
    b.answer codec env (.failure r.id
      (err "request_limit" "Broker request history limit reached; restart broker"))
  else if r.id ∈ b.ids then
    b.answer codec env (.failure r.id (err "duplicate_request" "Request ID was already used"))
  else
    let result := dispatch codec env r { b with ids := r.id :: b.ids }
    let b := result.2.releaseIdleLease
    match result.1 with
    | .ok (some value) => b.answer codec env (.success r.id value)
    | .ok none => b
    | .error e => b.answer codec env (.failure r.id e)

def finish (codec : Codec) (env : Env) (id : String) (result : Except DesktopError Json)
    (b : Broker) :
    Broker :=
  match b.pending.get id with
  | none => b
  | some operation => completed codec env operation result { b with pending := b.pending.erase id }

def step (codec : Codec) (b : Broker) (e : Event × Env) : Broker :=
  if b.ended then b
  else match e.1 with
    | .request r => b.serveRequest codec e.2 r
    | .invalid failure =>
      { b with read := "invalid" :: b.read }.answer codec e.2 (.failure "invalid" failure)
    | .done id result => b.finish codec e.2 id result
    | .timeout id => b.finish codec e.2 id
      (.error (err "helper_timeout" "Native helper deadline exceeded"))
    | .eof => { b with pending := .empty, ended := true }

end Broker

def run (codec : Codec) (events : List (Event × Env)) : Broker :=
  events.foldl (Broker.step codec) start

end Manvi.Desktop
