import Manvi.Workflow.Spec

/-! The reducer of a run: one event on one state gives the next state and the commands to carry
out. -/
namespace Manvi.Workflow
open Manvi.Encoding

inductive Phase where
  | ready
  | observing
  | awaitingApproval
  | acting
  | postAction
  | paused
  | completed
  | concluded
  | failed
  | cancelled
  | unknown
  deriving Repr, DecidableEq

inductive FailureCode where
  | externalInteraction
  | windowChanged
  | stateChanged
  | ambiguousTarget
  | incompleteObserve
  | notActionable
  | checkpoint
  | actionLimit
  | deadline
  | humanDenied
  | humanTakeover
  deriving Repr, DecidableEq

def FailureCode.name : FailureCode → String
  | .externalInteraction => "external_interaction"
  | .windowChanged => "window_changed"
  | .stateChanged => "state_changed"
  | .ambiguousTarget => "ambiguous_target"
  | .incompleteObserve => "incomplete_observation"
  | .notActionable => "not_actionable"
  | .checkpoint => "checkpoint_failed"
  | .actionLimit => "action_limit"
  | .deadline => "deadline_exceeded"
  | .humanDenied => "human_denied"
  | .humanTakeover => "human_takeover"

/-- The code an event names, when it is in the taxonomy. -/
def knownFailure (code : String) : Option FailureCode :=
  [.externalInteraction,.windowChanged,.stateChanged,.ambiguousTarget,.incompleteObserve,
    .notActionable,.checkpoint,.actionLimit,.deadline,.humanDenied,.humanTakeover].find?
    (fun c => c.name = code)

structure Observation where
  visual : Option VisualMatch
  id : String
  targetID : String
  matchCount : ℤ
  complete : Bool
  actionable : Bool
  value : Value
  reason : String
  strategyIndex : ℤ
  target : String
  deriving Repr, DecidableEq

def Observation.zero : Observation := ⟨none,"","",0,false,false,Value.zero,"",0,""⟩

inductive EventKind where
  | fence
  | cancel
  | pause
  | start
  | resume
  | observeFailed
  | observed
  | approve
  | deny
  | receipt
  | approvalChanged
  | externalInteraction
  | humanUnknown
  | error
  | other (name : String)
  deriving Repr, DecidableEq

inductive Delivery where
  | none
  | sent
  | notSent
  | unknown
  | other (name : String)
  deriving Repr, DecidableEq

structure Event where
  sequence : UInt64
  runID : String
  sessionID : String
  epoch : UInt64
  nextEpoch : UInt64
  elapsedMillis : ℤ
  kind : EventKind
  actionID : String
  observation : Observation
  delivery : Delivery
  failureCode : String
  reason : String
  deriving Repr, DecidableEq

structure State where
  runID : String
  sessionID : String
  epoch : UInt64
  capabilitySHA256 : String
  sequence : UInt64
  elapsedMillis : ℤ
  phase : Phase
  resumePhase : Option Phase
  stepIndex : ℕ
  actions : ℤ
  attempts : ℤ
  actionAttempt : ℤ
  observation : Observation
  outputs : Table String Value
  outcome : String
  recoveryCounts : Table String ℤ
  lastRecovery : String
  activeRecovery : String
  reason : String
  cause : Option FailureCode

inductive CommandKind where
  | observe
  | observeAfter
  | requestApproval
  | act
  deriving Repr, DecidableEq

structure Command where
  refocus : Bool
  delayMillis : ℤ
  kind : CommandKind
  actionID : String
  step : Step
  selector : Selector
  observationID : String
  targetID : String
  epoch : UInt64
  recoveryID : String

def newState (p : Program) (runID sessionID : String) (epoch : UInt64) : Except String State :=
  if runID = "" ∨ sessionID = "" ∨ epoch = 0 then
    .error "program, run, session and positive epoch required"
  else .ok ⟨runID,sessionID,epoch,p.digest,0,0,.ready,none,0,0,0,0,.zero,Table.empty,"",Table.empty,
    "","","",none⟩

namespace State

def terminal (s : State) : Bool :=
  s.phase = .completed || s.phase = .concluded || s.phase = .failed ||
  s.phase = .cancelled || s.phase = .unknown

/-- Record why the run is in its present phase. -/
def settle (s : State) (cause : Option FailureCode) (reason : String) : State :=
  { s with cause := cause, reason := reason }

def validateResume (s : State) (p : Program) : Except String Unit :=
  if s.capabilitySHA256 ≠ p.digest then .error "program identity mismatch"
  else if s.phase ≠ .paused then .error "resume requires paused phase"
  else if s.actionAttempt ≥ p.spec.limits.observationAttempts then
    .error "pre-dispatch action attempt budget exhausted; start a new run after reconciliation"
  else .ok ()

/-- The identifier of the step's present action. -/
def actionID (s : State) (p : Program) : String :=
  match p.spec.steps[s.stepIndex]? with
  | none => ""
  | some step =>
    let id := s.runID ++ ":" ++ step.id
    if 0 < s.actionAttempt then id ++ s!":attempt:{s.actionAttempt+1}" else id

/-- The command of a kind for the present step. -/
def command (s : State) (p : Program) (step : Step) (kind : CommandKind) : Command :=
  ⟨kind = .observe && 0 < s.actionAttempt,0,kind,s.actionID p,step,
    if step.target = "" then Selector.zero else p.target step.target,
    s.observation.id,s.observation.targetID,s.epoch,""⟩

/-- The run fails. -/
def fail (s : State) (cause : Option FailureCode) (reason : String) : State × List Command :=
  ({ s with phase := .failed, cause := cause, reason := reason },[])

end State

/-- What the reducer answers; an error leaves the state before it. -/
abbrev Reduced := Except String (State × List Command)

/-- Whether a predicate holds of a value, with its expectation resolved. -/
def evaluate (pred : Predicate) (actual : Value) (inputs outputs : Table String Value) :
    Except String Bool :=
  if pred.op = .exists then .ok (compare actual pred.op Value.zero)
  else do
    let expected ← resolve pred.expected inputs outputs
    return compare actual pred.op expected

/-- Whether a recovery answers an observation. -/
def Recovery.applies (r : Recovery) (s : State) (obs : Observation) (inputs : Table String Value) :
    Bool :=
  r.when.target = obs.target && !((s.recoveryCounts.get r.id).getD 0 ≥ r.max) &&
    (match evaluate r.when.predicate obs.value inputs s.outputs with
      | .ok passed => passed
      | .error _ => false)

/-- The state of a run that takes up a recovery. -/
def recovering (s : State) (r : Recovery) (obs : Observation) : State :=
  { s with
    recoveryCounts := s.recoveryCounts.set r.id ((s.recoveryCounts.get r.id).getD 0+1)
    lastRecovery := r.id
    activeRecovery := r.id
    observation := obs
    cause := none
    reason := "recovery applied: " ++ r.id
    actions := s.actions+1 }

/-- The first recovery that answers an observation, if one does. -/
def consultRecovery (p : Program) (s : State) (step : Step) (obs : Observation)
    (inputs : Table String Value) : Option (State × List Command) :=
  if obs.target = "" ∨ s.activeRecovery ≠ "" then none
  else match p.spec.recoveries.find? (fun r => r.applies s obs inputs) with
    | none => none
    | some r =>
      let s := recovering s r obs
      if s.actions > p.spec.limits.maxActions then
        some (s.fail (some .actionLimit) "action limit exceeded")
      else
        let s := { s with phase := .acting }
        some (s,[⟨false,0,.act,s.actionID p,
          ⟨step.id,r.action.kind,r.action.target,.read,Ref.zero,Predicate.zero,"",.absent,"","",
            "",""⟩,
          p.target r.action.target,"","",s.epoch,r.id⟩])

/-- The run ends at a conclude step. -/
def finishConclude (p : Program) (s : State) (step : Step) : State × List Command :=
  let kind := ((p.spec.outcomes.find?
    (fun o => o.id = step.outcome)).map OutcomeDef.kind).getD .success
  ({ s with
    outcome := step.outcome
    observation := .zero
    attempts := 0
    actionAttempt := 0
    cause := none
    reason := ""
    phase := if kind = .business then .concluded else .completed },[])

/-- Observe again, until the attempts are used up. -/
def retryObservation (p : Program) (s : State) (cmd : Command) (cause : Option FailureCode)
    (reason : String) : State × List Command :=
  let s := { s with attempts := s.attempts+1, cause := cause, reason := reason }
  if s.attempts ≥ p.spec.limits.observationAttempts then
    ({ s with
      resumePhase := some (if s.phase = .postAction then .postAction else .observing),
      phase := .paused },[])
  else (s,[{ cmd with
    kind := if s.phase = .postAction then .observeAfter else cmd.kind, delayMillis := 200 }])

/-- Where an edge leads; without a name, to the step after. -/
def nextIndex (p : Program) (s : State) (next : String) : ℕ :=
  if next = "" then s.stepIndex+1 else p.position next

/-- Go on to the next step. A position past the steps would be an index out of range. -/
def advance (p : Program) (s : State) (next : String) : Reduced :=
  let i := nextIndex p s next
  let s := { s with
    stepIndex := i, observation := .zero, attempts := 0, actionAttempt := 0, cause := none,
    reason := "" }
  if i = p.spec.steps.length then .ok ({ s with phase := .completed },[])
  else
    let s := { s with actions := s.actions+1 }
    if s.actions > p.spec.limits.maxActions then
      .ok (s.fail (some .actionLimit) "action limit exceeded")
    else match p.spec.steps[i]? with
      | none => .error "index out of range"
      | some step =>
        if step.kind = .conclude then .ok (finishConclude p s step)
        else
          let s := { s with phase := .observing }
          .ok (s,[⟨false,0,.observe,s.actionID p,step,p.target step.target,"","",s.epoch,""⟩])

/-- Whether an observation is bound to its rung: a visual one by its match, another by none. -/
def boundToRung (rung : Selector) (obs : Observation) : Except String Unit :=
  match rung.visual with
  | some anchor => match obs.visual with
    | none => .error "visual observation lacks its native match binding"
    | some v =>
      if v.targetID ≠ obs.targetID ∨ v.anchorSHA256 ≠ anchor.sha256 ∨
        v.frameSHA256.utf8ByteSize ≠ 64 ∨
          !v.matched.inside anchor.frameWidth anchor.frameHeight ∨ v.matched.width ≠ anchor.width ∨
          v.matched.height ≠ anchor.height then
        .error "visual observation lacks its native match binding"
      else .ok ()
  | none => if obs.visual.isSome then .error "semantic observation contains a visual match"
    else .ok ()

section handlers
variable (p : Program) (s : State) (step : Step) (event : Event) (inputs : Table String Value)

def reduceCancel : State × List Command :=
  if s.phase = .acting ∨ event.delivery = .unknown then
    ({ s with
      phase := .unknown, cause := none,
      reason := "cancelled while action delivery was unresolved" },[])
  else ({ s with phase := .cancelled, cause := none, reason := "cancelled" },[])

def reducePause : Reduced :=
  if event.nextEpoch ≤ s.epoch then .error "pause requires a broker-fenced newer epoch"
  else
    let resume := if s.phase = .postAction then some .postAction
      else if s.phase ≠ .paused then some .observing else s.resumePhase
    let s := { s with epoch := event.nextEpoch, observation := .zero, resumePhase := resume }
    if s.phase = .acting ∨ event.delivery = .unknown then
      .ok ({ s with phase := .unknown, cause := some .humanTakeover,
                    reason := "takeover after possible dispatch requires outcome reconciliation" },[])
    else .ok ({ s with
      phase := .paused, cause := knownFailure event.failureCode, reason := event.reason },[])

def reduceStart : Reduced :=
  if s.phase ≠ .ready then .error "start requires ready phase"
  else match p.validateInputs inputs with
    | .error e => .error e
    | .ok _ =>
      let s := { s with actions := 1 }
      if step.kind = .conclude then .ok (finishConclude p s step)
      else
        let s := { s with phase := .observing }
        .ok (s,[s.command p step .observe])

def reduceResume : Reduced :=
  match s.validateResume p with
  | .error e => .error e
  | .ok _ =>
    if event.nextEpoch ≤ s.epoch then .error "resume epoch regressed"
    else
      let after := s.resumePhase = some .postAction
      let s := { s with
        epoch := event.nextEpoch
        phase := if after then .postAction else .observing
        resumePhase := none
        attempts := 0
        cause := none
        reason := "" }
      .ok (s,[s.command p step (if after then .observeAfter else .observe)])

def reduceObserveFailed : Reduced :=
  if (s.phase ≠ .observing ∧ s.phase ≠ .postAction) ∨ event.actionID ≠ s.actionID p then
    .error "capture failure does not match an observation command"
  else .ok (retryObservation p s (s.command p step .observe) (some .incompleteObserve) event.reason)

/-- An observation of a step that only reads. -/
def reduceExtract : Reduced :=
  let value := event.observation.value
  if value.type ≠ step.outputType ∨ !value.validate.toBool then
    .ok (s.fail (some .checkpoint) "observed output has wrong type")
  else if step.outputType = .money ∧ value.currency ≠ step.currency then
    .ok (s.fail (some .checkpoint) "observed currency differs")
  else advance p { s with outputs := s.outputs.set step.output value } step.next

def reduceChecked : Reduced :=
  match evaluate step.predicate event.observation.value inputs s.outputs with
  | .error e => .ok (s.fail (some .checkpoint) e)
  | .ok passed =>
    if step.kind = .branch then advance p s (if passed then step.next else step.otherwise)
    else if passed then advance p s step.next
    else if step.kind = .wait then
      .ok (retryObservation p s (s.command p step .observe)
        (some .checkpoint) "wait predicate not yet satisfied")
    else .ok (s.fail (some .checkpoint) "checkpoint predicate failed")

/-- An observation of a step that acts: it asks for approval when the step changes something. -/
def reduceAction : Reduced :=
  if !event.observation.actionable then
    match consultRecovery p s step event.observation inputs with
    | some r => .ok r
    | none => .ok ({ s with phase := .paused, cause := some .notActionable,
                            reason := "target is not actionable: " ++ event.observation.reason },[])
  else if step.effect = .change then
    let s := { s with phase := .awaitingApproval }
    .ok (s,[s.command p step .requestApproval])
  else
    let s := { s with phase := .acting }
    .ok (s,[s.command p step .act])

/-- An observation that is complete and resolves to one element. -/
def reduceResolved : Reduced :=
  let ladder := (p.target step.target).ladder
  if event.observation.strategyIndex < 0 then .error "strategy_index out of range"
  else match ladder[event.observation.strategyIndex.toNat]? with
    | none => .error "strategy_index out of range"
    | some rung => match boundToRung rung event.observation with
      | .error e => .error e
      | .ok _ =>
        let s := { s with
          observation := event.observation
          attempts := if step.kind = .wait then s.attempts else 0 }
        match step.kind with
        | .extract => reduceExtract p s step event
        | .assert | .branch | .wait => reduceChecked p s step event inputs
        | _ => reduceAction p s step event inputs

def reduceObserved : Reduced :=
  let obs := event.observation
  if s.phase ≠ .observing ∧ s.phase ≠ .postAction then .error "unsolicited observation"
  else if event.actionID ≠ s.actionID p ∨ obs.id = "" then
    .error "observation action binding missing"
  else if !obs.complete then
    let retry := retryObservation p s (s.command p step .observe) (some .incompleteObserve)
      ("incomplete observation: " ++ obs.reason)
    if s.phase ≠ .postAction then .ok ((consultRecovery p s step obs inputs).getD retry)
      else .ok retry
  else if s.phase = .postAction then advance p s step.next
  else if obs.matchCount ≠ 1 ∨ obs.targetID = "" then
    .ok ((consultRecovery p s step obs inputs).getD
      (retryObservation p s (s.command p step .observe) (some .ambiguousTarget)
        s!"target resolves to {obs.matchCount} elements"))
  else reduceResolved p s step event inputs

def reduceApprove : Reduced :=
  if s.phase ≠ .awaitingApproval ∨ event.actionID ≠ s.actionID p ∨
    event.observation.id ≠ s.observation.id then
    .error "approval does not match pending action and observation"
  else
    let s := { s with phase := .acting }
    .ok (s,[s.command p step .act])

def reduceDeny : Reduced :=
  if s.phase ≠ .awaitingApproval ∨ event.actionID ≠ s.actionID p then
    .error "denial does not match pending action"
  else .ok ({ s with
    phase := .cancelled, cause := some .humanDenied, reason := "human denied action" },[])

def reduceSent : State × List Command :=
  if s.activeRecovery ≠ "" then
    let s := { s with
      activeRecovery := "", observation := .zero, attempts := 0, phase := .observing }
    (s,[s.command p step .observe])
  else
    let s := { s with phase := .postAction }
    (s,[s.command p step .observeAfter])

def reduceNotSent : State × List Command :=
  if event.failureCode = FailureCode.externalInteraction.name then
    let s := { s with actionAttempt := s.actionAttempt+1, actions := s.actions+1 }
    if s.actions > p.spec.limits.maxActions then s.fail (some .actionLimit) "action limit exceeded"
    else ({ s with
      phase := .paused
      resumePhase := some .observing
      observation := .zero
      attempts := 0
      activeRecovery := ""
      cause := some .externalInteraction
      reason := "external interaction requires human reconciliation: " ++ event.reason },[])
  else if event.failureCode = FailureCode.windowChanged.name ∨
    event.failureCode = FailureCode.stateChanged.name then
    let s := { s with
      actionAttempt := s.actionAttempt+1
      observation := .zero
      attempts := 0
      activeRecovery := ""
      cause := knownFailure event.failureCode
      reason := "pre-dispatch application change: " ++ event.reason }
    if s.actionAttempt ≥ p.spec.limits.observationAttempts then
      ({ s with
        phase := .paused
        resumePhase := some .observing
        reason := "pre-dispatch action attempt budget exhausted: " ++ event.reason },[])
    else
      let s := { s with actions := s.actions+1 }
      if s.actions > p.spec.limits.maxActions then
        s.fail (some .actionLimit) "action limit exceeded"
      else
        let s := { s with phase := .observing }
        (s,[{ s.command p step .observe with delayMillis := 200 }])
  else s.fail none ("action not dispatched: " ++ event.reason)

def reduceReceipt : Reduced :=
  if s.phase ≠ .acting ∨ event.actionID ≠ s.actionID p then
    .error "receipt does not match in-flight action"
  else match event.delivery with
    | .sent => .ok (reduceSent p s step)
    | .notSent => .ok (reduceNotSent p s step event)
    | .unknown => .ok ({ s with phase := .unknown, cause := none, reason := event.reason },[])
    | _ => .error "unsupported action disposition"

def reduceApprovalChanged : Reduced :=
  if s.phase ≠ .acting ∨ event.actionID ≠ s.actionID p ∨ step.effect ≠ .change then
    .error "approval revalidation does not match pending action"
  else
    let s := { s with
      phase := .observing, observation := .zero, cause := none, reason := event.reason }
    .ok (s,[s.command p step .observe])

def reduceExternalInteraction : Reduced :=
  if s.phase ≠ .observing ∧ s.phase ≠ .postAction then
    .error "external interaction observation does not match active capture"
  else .ok ({ s with
    resumePhase := some s.phase
    phase := .paused
    observation := .zero
    cause := some .externalInteraction
    reason := "external interaction requires human reconciliation: " ++ event.reason },[])

def reduceHumanUnknown : Reduced :=
  if s.phase ≠ .paused then .error "human outcome requires paused run"
  else .ok ({ s with phase := .unknown, cause := none, reason := event.reason },[])

def reduceError : State × List Command :=
  if s.phase = .acting ∨ s.phase = .postAction ∨ event.delivery = .unknown then
    ({ s with phase := .unknown, cause := none, reason := event.reason },[])
  else s.fail none event.reason

/-- The events that a live run takes at its present step. -/
def reduceLive : Reduced :=
  match event.kind with
  | .cancel => .ok (reduceCancel s event)
  | .pause => reducePause s event
  | .start => reduceStart p s step inputs
  | .resume => reduceResume p s step event
  | .observeFailed => reduceObserveFailed p s step event
  | .observed => reduceObserved p s step event inputs
  | .approve => reduceApprove p s step event
  | .deny => reduceDeny p s event
  | .receipt => reduceReceipt p s step event
  | .approvalChanged => reduceApprovalChanged p s step event
  | .externalInteraction => reduceExternalInteraction s event
  | .humanUnknown => reduceHumanUnknown s event
  | .error => .ok (reduceError s event)
  | .fence => .error "unsupported event \"fence\""
  | .other name => .error s!"unsupported event {repr name}"

end handlers

/-- The state at the sequence number and the time of an event. -/
def State.clocked (s : State) (event : Event) : State :=
  { s with sequence := event.sequence, elapsedMillis := event.elapsedMillis }

def expired (s : State) : State × List Command :=
  ({ s with
    phase := if s.phase = .acting then .unknown else .failed
    cause := some .deadline
    reason := "active execution deadline exceeded" },[])

/-- One event on one state. A rejected one leaves the state untouched. -/
def reduce (p : Program) (previous : State) (event : Event) (inputs : Table String Value) :
    Reduced :=
  if previous.capabilitySHA256 ≠ p.digest then .error "program identity mismatch"
  else if previous.actionAttempt < 0 ∨
    previous.actionAttempt > p.spec.limits.observationAttempts then
    .error "invalid action attempt state"
  else if event.runID ≠ previous.runID ∨ event.sessionID ≠ previous.sessionID ∨
    event.epoch ≠ previous.epoch then
    .error "stale or foreign event context"
  else if event.sequence = 0 ∨ event.sequence ≠ previous.sequence+1 ∨
    event.elapsedMillis < previous.elapsedMillis then
    .error "event sequence or clock regressed"
  else if event.kind = .fence then
    if event.nextEpoch ≤ previous.epoch then .error "fence requires a newer broker epoch"
    else .ok ({ previous.clocked event with epoch := event.nextEpoch },[])
  else if previous.terminal then .error "run is terminal"
  else match p.spec.steps[previous.stepIndex]? with
    | none => .error "invalid step state"
    | some step =>
      let s := previous.clocked event
      if s.elapsedMillis > p.spec.limits.activeSeconds*1000 then .ok (expired s)
      else reduceLive p s step event inputs

end Manvi.Workflow
