import Manvi.Workflow.Engine

/-! Everything a step of a run can do, said once for all that is proved about runs. -/
namespace Manvi.Workflow
open Manvi.Encoding

/-- A state at the same step with the same counters and outputs. -/
structure Keeps (s t : State) : Prop where
  runID : t.runID = s.runID
  digest : t.capabilitySHA256 = s.capabilitySHA256
  stepIndex : t.stepIndex = s.stepIndex
  actions : t.actions = s.actions
  attempt : t.actionAttempt = s.actionAttempt
  outputs : t.outputs = s.outputs
  counts : t.recoveryCounts = s.recoveryCounts

lemma actionID_congr {p : Program} {s t : State} (run : t.runID = s.runID)
    (step : t.stepIndex = s.stepIndex)
    (attempt : t.actionAttempt = s.actionAttempt) : t.actionID p = s.actionID p := by
  unfold State.actionID
  rw [run,step,attempt]

lemma Keeps.refl (s : State) : Keeps s s := ⟨rfl,rfl,rfl,rfl,rfl,rfl,rfl⟩

lemma Keeps.actionID {p : Program} {s t : State} (h : Keeps s t) : t.actionID p = s.actionID p :=
  actionID_congr h.runID h.stepIndex h.attempt

/-- A step that is carried out by an act, not by an observation alone. -/
def StepKind.acts (k : StepKind) : Bool := k ≠ .extract && k ≠ .assert && k ≠ .branch && k ≠ .wait

/-- The outputs after a step that is left. -/
inductive Yields (s : State) (step : Step) : Table String Value → Prop
  | same (h : step.kind ≠ .extract ∨ s.phase = .postAction) : Yields s step s.outputs
  | extract (v : Value) (h : step.kind = .extract) (type : v.type = step.outputType)
      (valid : v.validate = .ok ())
      (currency : step.outputType = .money → v.currency = step.currency) :
      Yields s step (s.outputs.set step.output v)

/-- The edges by which a step is left. -/
def Edge (step : Step) (next : String) : Prop :=
  next = step.next ∨ (step.kind = .branch ∧ next = step.otherwise)

/-- An observation that is complete and resolves to one element. -/
def Observation.Resolved (obs : Observation) : Prop :=
  obs.complete = true ∧ obs.matchCount = 1 ∧ obs.targetID ≠ ""

/-- An observation that a step cannot go on with: a recovery is looked for. -/
def Unsure (step : Step) (obs : Observation) : Prop :=
  ¬ obs.Resolved ∨ (step.kind.acts = true ∧ obs.actionable = false)

/-- How a run is left paused with nothing charged. -/
inductive Rests (s t : State) : Prop
  | after (h : s.phase = .postAction) (resume : t.resumePhase = some .postAction)
  | before (h : s.phase = .observing ∨ s.phase = .awaitingApproval)
      (resume : t.resumePhase = some .observing ∨ t.resumePhase = s.resumePhase)
  | still (h : s.phase = .paused) (resume : t.resumePhase = s.resumePhase)
  | unstarted (h : s.phase = .ready) (resume : t.resumePhase = some .observing)

/-- The epoch stays as it is, but for a pause, which may bring a later one. -/
def Onward (s : State) (event : Event) (t : State) : Prop :=
  t.epoch = s.epoch ∨ (event.kind = .pause ∧ s.epoch < t.epoch)

/-- The active time of a run is used up. -/
def Late (p : Program) (s : State) : Prop := p.spec.limits.activeSeconds*1000 < s.elapsedMillis

/-- What an event does to a live run at its present step. -/
inductive Move (p : Program) (s : State) (step : Step) (event : Event)
    (inputs : Table String Value) :
    State → List Command → Prop
  | halt {t : State} (phase : t.phase = .failed ∨ t.phase = .cancelled ∨ t.phase = .unknown)
      (digest : t.capabilitySHA256 = s.capabilitySHA256)
      (actions : t.phase ≠ .failed → t.actions = s.actions)
      (attempt : t.actionAttempt = s.actionAttempt ∨ t.actionAttempt = 0 ∨
        (s.phase = .acting ∧ t.actionAttempt = s.actionAttempt+1))
      (counts : t.recoveryCounts = s.recoveryCounts ∨ ∃ r ∈ p.spec.recoveries,
        (s.recoveryCounts.get r.id).getD 0 < r.max ∧
        t.recoveryCounts = s.recoveryCounts.set r.id ((s.recoveryCounts.get r.id).getD 0+1))
      (acting : s.phase = .acting → t.phase = .unknown ∨
        (event.kind = .receipt ∧ event.delivery = .notSent))
      (kind : Late p s ∨ (event.kind ≠ .start ∧ event.kind ≠ .resume ∧
        event.kind ≠ .approvalChanged ∧
        ¬ (event.kind = .receipt ∧ event.delivery = .sent)))
      (epoch : Onward s event t) : Move p s step event inputs t []
  | pause {t : State} (phase : t.phase = .paused) (keeps : Keeps s t) (rests : Rests s t)
      (recovery : t.activeRecovery = s.activeRecovery)
      (ready : s.phase = .ready → event.kind = .pause)
      (kind : event.kind ≠ .start ∧ event.kind ≠ .resume ∧ event.kind ≠ .receipt ∧
        event.kind ≠ .approvalChanged)
      (epoch : Onward s event t) : Move p s step event inputs t []
  | start (kind : event.kind = .start) (ready : s.phase = .ready)
      (valid : p.validateInputs inputs = .ok ())
      (live : step.kind ≠ .conclude) (c : Command) (hc : c.kind = .observe) (hstep : c.step = step)
      (within : c.epoch = s.epoch) :
      Move p s step event inputs { s with actions := 1, phase := .observing } [c]
  | startConclude (kind : event.kind = .start) (ready : s.phase = .ready)
      (valid : p.validateInputs inputs = .ok ()) (ends : step.kind = .conclude) :
      Move p s step event inputs (finishConclude p { s with actions := 1 } step).1 []
  | resume {t : State} (kind : event.kind = .resume) (paused : s.phase = .paused)
      (attempts : s.actionAttempt < p.spec.limits.observationAttempts) (keeps : Keeps s t)
      (phase : t.phase = if s.resumePhase = some .postAction then .postAction else .observing)
      (resumePhase : t.resumePhase = none) (recovery : t.activeRecovery = s.activeRecovery)
      (c : Command)
      (hc : c.kind = if s.resumePhase = some .postAction then .observeAfter else .observe)
      (hstep : c.step = step) (epoch : s.epoch < t.epoch) (within : c.epoch = t.epoch) :
      Move p s step event inputs t [c]
  | again {t : State} (was : s.phase = .observing ∨ s.phase = .postAction)
      (phase : t.phase = s.phase)
      (keeps : Keeps s t) (resumePhase : t.resumePhase = s.resumePhase)
      (recovery : t.activeRecovery = s.activeRecovery) (c : Command)
      (hc : c.kind = if s.phase = .postAction then .observeAfter else .observe)
      (hstep : c.step = step)
      (kind : event.kind = .observed ∨ event.kind = .observeFailed) (epoch : t.epoch = s.epoch)
      (within : c.epoch = s.epoch) : Move p s step event inputs t [c]
  | recover {t : State} (kind : event.kind = .observed) (was : s.phase = .observing)
      (free : s.activeRecovery = "")
      (r : Recovery) (mem : r ∈ p.spec.recoveries)
      (picked : p.spec.recoveries.find? (fun r => r.applies s event.observation inputs) = some r)
      (room : (s.recoveryCounts.get r.id).getD 0 < r.max)
      (budget : s.actions+1 ≤ p.spec.limits.maxActions)
      (phase : t.phase = .acting) (keeps : Keeps { s with
        actions := s.actions+1
        recoveryCounts := s.recoveryCounts.set r.id ((s.recoveryCounts.get r.id).getD 0+1) } t)
      (resumePhase : t.resumePhase = s.resumePhase) (recovery : t.activeRecovery = r.id)
      (c : Command)
      (hc : c.kind = .act) (hid : c.actionID = s.actionID p) (hr : c.recoveryID = r.id)
      (hstep : c.step.id = step.id ∧ c.step.kind = r.action.kind ∧ c.step.target = r.action.target ∧
        c.step.effect = .read) (unsure : Unsure step event.observation) (epoch : t.epoch = s.epoch)
      (within : c.epoch = s.epoch) (on : c.observationID = "") : Move p s step event inputs t [c]
  | enter (kind : event.kind = .observed) (was : s.phase = .observing ∨ s.phase = .postAction)
      (next : String)
      (edge : Edge step next) {outs : Table String Value} (yields : Yields s step outs) {t : State}
      (into : Step) (there : p.spec.steps[nextIndex p s next]? = some into)
      (live : into.kind ≠ .conclude)
      (budget : s.actions+1 ≤ p.spec.limits.maxActions) (phase : t.phase = .observing)
      (keeps : Keeps { s with
        stepIndex := nextIndex p s next
        actions := s.actions+1
        actionAttempt := 0
        outputs := outs } t)
      (resumePhase : t.resumePhase = s.resumePhase) (recovery : t.activeRecovery = s.activeRecovery)
      (c : Command)
      (hc : c.kind = .observe) (hstep : c.step = into) (epoch : t.epoch = s.epoch)
      (within : c.epoch = s.epoch) : Move p s step event inputs t [c]
  | conclude (kind : event.kind = .observed) (was : s.phase = .observing ∨ s.phase = .postAction)
      (next : String)
      (edge : Edge step next) {outs : Table String Value} (yields : Yields s step outs)
      (into : Step)
      (there : p.spec.steps[nextIndex p s next]? = some into) (ends : into.kind = .conclude)
      (budget : s.actions+1 ≤ p.spec.limits.maxActions) {s1 : State}
      (keeps : Keeps { s with
        stepIndex := nextIndex p s next
        actions := s.actions+1
        actionAttempt := 0
        outputs := outs } s1) (epoch : s1.epoch = s.epoch) :
      Move p s step event inputs (finishConclude p s1 into).1 []
  | complete (kind : event.kind = .observed) (was : s.phase = .observing ∨ s.phase = .postAction)
      (next : String)
      (edge : Edge step next) {outs : Table String Value} (yields : Yields s step outs)
      (past : nextIndex p s next = p.spec.steps.length) {t : State} (phase : t.phase = .completed)
      (keeps : Keeps { s with
        stepIndex := nextIndex p s next, actionAttempt := 0, outputs := outs } t)
      (epoch : t.epoch = s.epoch) : Move p s step event inputs t []
  | ask {t : State} (kind : event.kind = .observed) (was : s.phase = .observing)
      (acts : step.kind.acts = true)
      (change : step.effect = .change) (phase : t.phase = .awaitingApproval) (keeps : Keeps s t)
      (resumePhase : t.resumePhase = s.resumePhase) (recovery : t.activeRecovery = s.activeRecovery)
      (seen : t.observation = event.observation) (index : 0 ≤ event.observation.strategyIndex)
      (c : Command) (hc : c.kind = .requestApproval) (hstep : c.step = step)
      (resolved : event.observation.Resolved) (actionable : event.observation.actionable = true)
      (names : event.actionID = s.actionID p) (epoch : t.epoch = s.epoch)
      (within : c.epoch = s.epoch) :
      Move p s step event inputs t [c]
  | act {t : State} (kind : event.kind = .observed) (was : s.phase = .observing)
      (acts : step.kind.acts = true)
      (read : step.effect ≠ .change) (phase : t.phase = .acting) (keeps : Keeps s t)
      (resumePhase : t.resumePhase = s.resumePhase) (recovery : t.activeRecovery = s.activeRecovery)
      (seen : t.observation = event.observation) (index : 0 ≤ event.observation.strategyIndex)
      (c : Command) (hc : c.kind = .act) (hid : c.actionID = s.actionID p) (hr : c.recoveryID = "")
      (hstep : c.step = step) (resolved : event.observation.Resolved)
      (actionable : event.observation.actionable = true) (epoch : t.epoch = s.epoch)
      (within : c.epoch = s.epoch) (on : c.observationID = event.observation.id) :
      Move p s step event inputs t [c]
  | approve {t : State} (kind : event.kind = .approve) (was : s.phase = .awaitingApproval)
      (names : event.actionID = s.actionID p ∧ event.observation.id = s.observation.id)
      (phase : t.phase = .acting) (keeps : Keeps s t) (resumePhase : t.resumePhase = s.resumePhase)
      (recovery : t.activeRecovery = s.activeRecovery) (seen : t.observation = s.observation)
      (c : Command)
      (hc : c.kind = .act) (hid : c.actionID = s.actionID p) (hr : c.recoveryID = "")
      (hstep : c.step = step)
      (epoch : t.epoch = s.epoch) (within : c.epoch = s.epoch)
      (on : c.observationID = s.observation.id) :
      Move p s step event inputs t [c]
  | recovered {t : State} (kind : event.kind = .receipt) (sent : event.delivery = .sent)
      (was : s.phase = .acting)
      (busy : s.activeRecovery ≠ "") (phase : t.phase = .observing) (keeps : Keeps s t)
      (resumePhase : t.resumePhase = s.resumePhase) (recovery : t.activeRecovery = "") (c : Command)
      (hc : c.kind = .observe) (hstep : c.step = step) (epoch : t.epoch = s.epoch)
      (within : c.epoch = s.epoch) : Move p s step event inputs t [c]
  | delivered {t : State} (kind : event.kind = .receipt) (sent : event.delivery = .sent)
      (was : s.phase = .acting)
      (free : s.activeRecovery = "") (phase : t.phase = .postAction) (keeps : Keeps s t)
      (resumePhase : t.resumePhase = s.resumePhase) (recovery : t.activeRecovery = "") (c : Command)
      (hc : c.kind = .observeAfter) (hstep : c.step = step) (epoch : t.epoch = s.epoch)
      (within : c.epoch = s.epoch) : Move p s step event inputs t [c]
  | refused {t : State} (kind : event.kind = .receipt) (notSent : event.delivery = .notSent)
      (was : s.phase = .acting) (phase : t.phase = .paused)
      (resumePhase : t.resumePhase = some .observing)
      (recovery : t.activeRecovery = "") (charge : ℤ)
      (charged : (charge = 1 ∧ s.actions+1 ≤ p.spec.limits.maxActions) ∨
        (charge = 0 ∧ p.spec.limits.observationAttempts ≤ s.actionAttempt+1))
      (keeps : Keeps { s with actions := s.actions+charge, actionAttempt := s.actionAttempt+1 } t)
      (epoch : t.epoch = s.epoch) : Move p s step event inputs t []
  | retried {t : State} (kind : event.kind = .receipt) (notSent : event.delivery = .notSent)
      (was : s.phase = .acting) (phase : t.phase = .observing)
      (resumePhase : t.resumePhase = s.resumePhase)
      (recovery : t.activeRecovery = "") (budget : s.actions+1 ≤ p.spec.limits.maxActions)
      (attempts : s.actionAttempt+1 < p.spec.limits.observationAttempts)
      (keeps : Keeps { s with actions := s.actions+1, actionAttempt := s.actionAttempt+1 } t)
      (c : Command)
      (hc : c.kind = .observe) (hstep : c.step = step) (epoch : t.epoch = s.epoch)
      (within : c.epoch = s.epoch) : Move p s step event inputs t [c]
  | withdraw {t : State} (kind : event.kind = .approvalChanged) (was : s.phase = .acting)
      (change : step.effect = .change) (phase : t.phase = .observing) (keeps : Keeps s t)
      (resumePhase : t.resumePhase = s.resumePhase) (recovery : t.activeRecovery = s.activeRecovery)
      (c : Command)
      (hc : c.kind = .observe) (hstep : c.step = step) (epoch : t.epoch = s.epoch)
      (within : c.epoch = s.epoch) : Move p s step event inputs t [c]

section
variable {p : Program} {s s0 : State} {step : Step} {event : Event} {inputs : Table String Value}
  {r : State × List Command}

/-- A state that only what is no part of a move tells from another. -/
structure Alike (s s0 : State) : Prop extends Keeps s s0 where
  phase : s0.phase = s.phase
  resumePhase : s0.resumePhase = s.resumePhase
  recovery : s0.activeRecovery = s.activeRecovery
  epoch : s0.epoch = s.epoch

lemma move_retryObservation (h : Alike s s0) (was : s.phase = .observing ∨ s.phase = .postAction)
    (kind : event.kind = .observed ∨ event.kind = .observeFailed) {cmd : Command}
    (hc : cmd.kind = .observe)
    (hstep : cmd.step = step) (within : cmd.epoch = s.epoch) (cause : Option FailureCode)
    (reason : String) :
    Move p s step event inputs (retryObservation p s0 cmd cause reason).1
      (retryObservation p s0 cmd cause reason).2 := by
  have hkind : event.kind ≠ .start ∧ event.kind ≠ .resume ∧ event.kind ≠ .receipt ∧
      event.kind ≠ .approvalChanged := by
    rcases kind with h | h <;> simp [h]
  have hready : s.phase ≠ .ready := by
    rcases was with h | h <;> simp [h]
  unfold retryObservation
  dsimp only
  by_cases hlast : s0.attempts+1 ≥ p.spec.limits.observationAttempts
  · rw [if_pos hlast,h.phase]
    refine .pause rfl ⟨h.runID,h.digest,h.stepIndex,h.actions,h.attempt,h.outputs,
      h.counts⟩ ?_ h.recovery
      (fun h => (hready h).elim) hkind (.inl h.epoch)
    rcases was with hs | hs
    · refine .before (.inl hs) (.inl ?_)
      simp [hs]
    · refine .after hs ?_
      simp [hs]
  · rw [if_neg hlast,h.phase]
    refine .again was ?_ ?_ ?_ ?_ _ ?_ ?_ kind h.epoch within
    · rfl
    · exact ⟨h.runID,h.digest,h.stepIndex,h.actions,h.attempt,h.outputs,h.counts⟩
    · exact h.resumePhase
    · exact h.recovery
    · dsimp only
      rw [hc]
    · exact hstep

/-- Going on by an edge, from a state that has stored what the step yields. -/
lemma move_advance (kind : event.kind = .observed)
    (was : s.phase = .observing ∨ s.phase = .postAction)
    {next : String} (edge : Edge step next) (yields : Yields s step s0.outputs)
    (h : Alike { s with outputs := s0.outputs } s0) (hr : advance p s0 next = .ok r) :
    Move p s step event inputs r.1 r.2 := by
  have hindex : nextIndex p s0 next = nextIndex p s next := by
    unfold nextIndex
    rw [h.stepIndex]
  have hacting : s.phase ≠ .acting := by
    rcases was with h | h <;> simp [h]
  unfold advance at hr
  dsimp only at hr
  rw [hindex] at hr
  by_cases hend : nextIndex p s next = p.spec.steps.length
  · rw [if_pos hend] at hr
    cases hr
    exact .complete kind was next edge yields hend rfl
      ⟨h.runID,h.digest,rfl,h.actions,rfl,rfl,h.counts⟩ h.epoch
  rw [if_neg hend] at hr
  by_cases hlimit : s0.actions+1 > p.spec.limits.maxActions
  · rw [if_pos hlimit] at hr
    cases hr
    refine .halt (.inl rfl) h.digest (fun hne => (hne rfl).elim) (.inr (.inl rfl)) (.inl h.counts)
      (fun ha => (hacting ha).elim) (.inr ?_) (.inl h.epoch)
    simp [kind]
  rw [if_neg hlimit] at hr
  have hbudget : s.actions+1 ≤ p.spec.limits.maxActions := by
    have hacts : s0.actions = s.actions := h.actions
    omega
  have hkeeps : ∀ observation attempts cause reason phase, Keeps { s with
      stepIndex := nextIndex p s next
      actions := s.actions+1
      actionAttempt := 0
      outputs := s0.outputs } { s0 with
      stepIndex := nextIndex p s next
      observation := observation
      attempts := attempts
      actionAttempt := 0
      cause := cause
      reason := reason
      actions := s0.actions+1
      phase := phase } :=
    fun _ _ _ _ _ => ⟨h.runID,h.digest,rfl,congrArg (fun n => n+1) h.actions,rfl,rfl,h.counts⟩
  cases hthere : p.spec.steps[nextIndex p s next]? with
  | none =>
    rw [hthere] at hr
    cases hr
  | some into =>
    rw [hthere] at hr
    dsimp only at hr
    by_cases hconclude : into.kind = .conclude
    · rw [if_pos hconclude] at hr
      cases hr
      exact .conclude kind was next edge yields into hthere hconclude hbudget
        (hkeeps _ _ _ _ s0.phase) h.epoch
    · rw [if_neg hconclude] at hr
      cases hr
      exact .enter kind was next edge yields into hthere hconclude hbudget rfl (hkeeps _ _ _ _ _)
        h.resumePhase h.recovery _ rfl rfl h.epoch h.epoch

lemma move_consultRecovery (kind : event.kind = .observed) (was : s.phase = .observing)
    (h : Alike s s0)
    (unsure : Unsure step event.observation)
    (hr : consultRecovery p s0 step event.observation inputs = some r) :
    Move p s step event inputs r.1 r.2 := by
  unfold consultRecovery at hr
  by_cases hfree : event.observation.target = "" ∨ s0.activeRecovery ≠ ""
  · rw [if_pos hfree] at hr
    cases hr
  rw [if_neg hfree] at hr
  have happlies : (fun r : Recovery => r.applies s0 event.observation inputs) =
      (fun r : Recovery => r.applies s event.observation inputs) := by
    funext r
    unfold Recovery.applies
    rw [h.counts,h.outputs]
  rw [happlies] at hr
  cases hfind : p.spec.recoveries.find? (fun r => r.applies s event.observation inputs) with
  | none =>
    rw [hfind] at hr
    cases hr
  | some rec =>
    rw [hfind] at hr
    have hmem := List.mem_of_find?_eq_some hfind
    have hroom : (s.recoveryCounts.get rec.id).getD 0 < rec.max := by
      have := List.find?_some hfind
      simp only [Recovery.applies,Bool.and_eq_true,Bool.not_eq_true',decide_eq_false_iff_not,
        not_le] at this
      exact this.1.2
    have hcounts : s0.recoveryCounts = s.recoveryCounts := h.counts
    dsimp only at hr
    by_cases hlimit : (recovering s0 rec event.observation).actions > p.spec.limits.maxActions
    · rw [if_pos hlimit] at hr
      cases hr
      refine .halt (.inl rfl) h.digest (fun hne => (hne rfl).elim) (.inl h.attempt)
        (.inr ⟨rec,hmem,hroom,?_⟩) (fun ha => by rw [was] at ha; cases ha) (.inr (by simp [kind]))
        (.inl h.epoch)
      change s0.recoveryCounts.set _ _ = _
      rw [hcounts]
    · rw [if_neg hlimit] at hr
      cases hr
      have hbudget : s.actions+1 ≤ p.spec.limits.maxActions := by
        have hacts : s0.actions = s.actions := h.actions
        have hnot : ¬ s0.actions+1 > p.spec.limits.maxActions := hlimit
        omega
      refine .recover kind was ?_ rec hmem hfind hroom hbudget rfl ?_ ?_ rfl _ rfl ?_ ?_ ?_ unsure
        h.epoch h.epoch rfl
      · have hfree := (not_or.mp hfree).2
        rw [← h.recovery]
        exact not_not.mp hfree
      · refine ⟨h.runID,h.digest,h.stepIndex,congrArg (fun n => n+1) h.actions,h.attempt,
          h.outputs,?_⟩
        change s0.recoveryCounts.set _ _ = _
        rw [hcounts]
      · exact h.resumePhase
      · exact actionID_congr h.runID h.stepIndex h.attempt
      · rfl
      · exact ⟨rfl,rfl,rfl,rfl⟩

lemma move_recovery_or_retry (kind : event.kind = .observed) (was : s.phase = .observing)
    (h : Alike s s0)
    (unsure : ¬ event.observation.Resolved) {retry : State × List Command}
    (hretry : Move p s step event inputs retry.1 retry.2) :
    Move p s step event inputs ((consultRecovery p s0 step event.observation inputs).getD retry).1
      ((consultRecovery p s0 step event.observation inputs).getD retry).2 := by
  cases hr : consultRecovery p s0 step event.observation inputs with
  | none => exact hretry
  | some r => exact move_consultRecovery kind was h (.inl unsure) hr

lemma Alike.refl (s : State) : Alike s s := ⟨Keeps.refl s,rfl,rfl,rfl,rfl⟩

/-- Any end of a run that no receipt, start, resume or withdrawal brings. -/
lemma move_end {t : State} (phase : t.phase = .failed ∨ t.phase = .cancelled ∨ t.phase = .unknown)
    (keeps : Keeps s t)
    (acting : s.phase = .acting → t.phase = .unknown)
    (kind : event.kind ≠ .start ∧ event.kind ≠ .resume ∧ event.kind ≠ .approvalChanged ∧
      event.kind ≠ .receipt)
    (epoch : Onward s event t) : Move p s step event inputs t [] :=
  .halt phase keeps.digest (fun _ => keeps.actions) (.inl keeps.attempt) (.inl keeps.counts)
    (fun h => .inl (acting h)) (.inr ⟨kind.1,kind.2.1,kind.2.2.1,fun h => kind.2.2.2 h.1⟩) epoch

lemma move_reduceCancel (kind : event.kind = .cancel) :
    Move p s step event inputs (reduceCancel s event).1 (reduceCancel s event).2 := by
  unfold reduceCancel
  by_cases hu : s.phase = .acting ∨ event.delivery = .unknown
  · rw [if_pos hu]
    exact move_end (.inr (.inr rfl)) ⟨rfl,rfl,rfl,rfl,rfl,rfl,
      rfl⟩ (fun _ => rfl) (by simp [kind]) (.inl rfl)
  · rw [if_neg hu]
    exact move_end (.inr (.inl rfl)) ⟨rfl,rfl,rfl,rfl,rfl,rfl,
      rfl⟩ (fun h => (hu (.inl h)).elim) (by simp [kind]) (.inl rfl)

lemma move_reducePause (kind : event.kind = .pause) (live : s.terminal = false)
    (h : reducePause s event = .ok r) : Move p s step event inputs r.1 r.2 := by
  unfold reducePause at h
  by_cases hepoch : event.nextEpoch ≤ s.epoch
  · rw [if_pos hepoch] at h
    cases h
  rw [if_neg hepoch] at h
  dsimp only at h
  by_cases hacting : s.phase = .acting ∨ event.delivery = .unknown
  · rw [if_pos hacting] at h
    cases h
    exact move_end (.inr (.inr rfl)) ⟨rfl,rfl,rfl,rfl,rfl,rfl,rfl⟩ (fun _ => rfl) (by simp [kind])
      (.inr ⟨kind,UInt64.not_le.mp hepoch⟩)
  · rw [if_neg hacting] at h
    cases h
    refine .pause rfl ⟨rfl,rfl,rfl,rfl,rfl,rfl,rfl⟩ ?_ rfl (fun _ => kind) (by simp [kind])
      (.inr ⟨kind,UInt64.not_le.mp hepoch⟩)
    have hnot := (not_or.mp hacting).1
    cases hs : s.phase with
    | ready => exact .unstarted hs (by simp)
    | observing => exact .before (.inl hs) (.inl (by simp))
    | awaitingApproval => exact .before (.inr hs) (.inl (by simp))
    | postAction => exact .after hs (by simp)
    | paused => exact .still hs (by simp)
    | acting => exact (hnot hs).elim
    | completed | concluded | failed | cancelled | unknown => simp [State.terminal,hs] at live

lemma move_reduceStart (kind : event.kind = .start) (h : reduceStart p s step inputs = .ok r) :
    Move p s step event inputs r.1 r.2 := by
  unfold reduceStart at h
  by_cases hready : s.phase = .ready
  swap
  · rw [if_pos hready] at h
    cases h
  rw [if_neg (not_not.mpr hready)] at h
  cases hvalid : p.validateInputs inputs with
  | error e =>
    rw [hvalid] at h
    cases h
  | ok u =>
    rw [hvalid] at h
    dsimp only at h
    by_cases hend : step.kind = .conclude
    · rw [if_pos hend] at h
      cases h
      exact .startConclude kind hready hvalid hend
    · rw [if_neg hend] at h
      cases h
      exact .start kind hready hvalid hend _ rfl rfl rfl

lemma move_reduceResume (kind : event.kind = .resume) (h : reduceResume p s step event = .ok r) :
    Move p s step event inputs r.1 r.2 := by
  unfold reduceResume at h
  cases hvalid : s.validateResume p with
  | error e =>
    rw [hvalid] at h
    cases h
  | ok u =>
    rw [hvalid] at h
    dsimp only at h
    unfold State.validateResume at hvalid
    split_ifs at hvalid with hdigest hphase hattempt
    by_cases hepoch : event.nextEpoch ≤ s.epoch
    · rw [if_pos hepoch] at h
      cases h
    rw [if_neg hepoch] at h
    cases h
    refine .resume kind (not_not.mp hphase) (not_le.mp hattempt) ?_ ?_ ?_ ?_ _ ?_ ?_
      (UInt64.not_le.mp hepoch) rfl
    · exact ⟨rfl,rfl,rfl,rfl,rfl,rfl,rfl⟩
    · simp only
    · rfl
    · rfl
    · simp only [State.command]
    · rfl

lemma move_reduceObserveFailed (kind : event.kind = .observeFailed)
    (h : reduceObserveFailed p s step event = .ok r) : Move p s step event inputs r.1 r.2 := by
  unfold reduceObserveFailed at h
  split_ifs at h with hbad
  cases h
  have was : s.phase = .observing ∨ s.phase = .postAction := by
    by_contra hnot
    exact hbad (.inl (by tauto))
  exact move_retryObservation (Alike.refl s) was (.inr kind) (by rfl) (by rfl) (by rfl) _ _

lemma move_checkpoint (kind : event.kind = .observed) (was : s.phase = .observing) (h : Alike s s0)
    (cause : Option FailureCode) (reason : String) :
    Move p s step event inputs (s0.fail cause reason).1 (s0.fail cause reason).2 := by
  refine move_end (.inl rfl) ⟨h.runID,h.digest,h.stepIndex,h.actions,h.attempt,h.outputs,
    h.counts⟩ ?_
    (by simp [kind]) (.inl h.epoch)
  intro ha
  rw [was] at ha
  cases ha

lemma move_reduceExtract (kind : event.kind = .observed) (was : s.phase = .observing)
    (h : Alike s s0)
    (hstep : step.kind = .extract) (hr : reduceExtract p s0 step event = .ok r) :
    Move p s step event inputs r.1 r.2 := by
  unfold reduceExtract at hr
  dsimp only at hr
  split_ifs at hr with htype hcurrency
  · cases hr
    exact move_checkpoint kind was h _ _
  · cases hr
    exact move_checkpoint kind was h _ _
  · have hvalid : event.observation.value.validate = .ok () := by
      cases hv : event.observation.value.validate with
      | error e => exact (htype (.inr (by simp [hv,Except.toBool]))).elim
      | ok u => rfl
    have hyields : Yields s step (s0.outputs.set step.output event.observation.value) := by
      rw [h.outputs]
      exact .extract _ hstep (by tauto) hvalid (by tauto)
    refine move_advance kind (.inl was) (.inl rfl) hyields ?_ hr
    exact ⟨⟨h.runID,h.digest,h.stepIndex,h.actions,h.attempt,rfl,h.counts⟩,h.phase,h.resumePhase,
      h.recovery,h.epoch⟩

lemma yields_of_observes {k : StepKind} (h : step.kind = k) (hk : k ≠ .extract)
    (ho : s0.outputs = s.outputs) :
    Yields s step s0.outputs := by
  rw [ho]
  exact .same (.inl (h ▸ hk))

lemma move_reduceChecked (kind : event.kind = .observed) (was : s.phase = .observing)
    (h : Alike s s0)
    (hstep : step.kind ≠ .extract) (hr : reduceChecked p s0 step event inputs = .ok r) :
    Move p s step event inputs r.1 r.2 := by
  have halike : Alike { s with outputs := s0.outputs } s0 :=
    ⟨⟨h.runID,h.digest,h.stepIndex,h.actions,h.attempt,rfl,h.counts⟩,h.phase,h.resumePhase,
      h.recovery,h.epoch⟩
  have hyields : Yields s step s0.outputs := yields_of_observes rfl hstep h.outputs
  unfold reduceChecked at hr
  split at hr
  · cases hr
    exact move_checkpoint kind was h _ _
  · rename_i passed _
    by_cases hbranch : step.kind = .branch
    · rw [if_pos hbranch] at hr
      refine move_advance kind (.inl was) ?_ hyields halike hr
      cases passed with
      | true => exact .inl rfl
      | false => exact .inr ⟨hbranch,rfl⟩
    rw [if_neg hbranch] at hr
    cases passed with
    | true =>
      rw [if_pos rfl] at hr
      exact move_advance kind (.inl was) (.inl rfl) hyields halike hr
    | false =>
      rw [if_neg (by simp)] at hr
      split_ifs at hr
      · cases hr
        exact move_retryObservation h (.inl was) (.inl kind) (by rfl) (by rfl) h.epoch _ _
      · cases hr
        exact move_checkpoint kind was h _ _

lemma move_reduceAction (kind : event.kind = .observed) (was : s.phase = .observing)
    (h : Alike s s0)
    (names : event.actionID = s.actionID p)
    (acts : step.kind.acts = true) (seen : s0.observation = event.observation)
    (resolved : event.observation.Resolved) (index : 0 ≤ event.observation.strategyIndex)
    (hr : reduceAction p s0 step event inputs = .ok r) :
    Move p s step event inputs r.1 r.2 := by
  have hkeeps : ∀ phase, Keeps s { s0 with phase := phase } :=
    fun _ => ⟨h.runID,h.digest,h.stepIndex,h.actions,h.attempt,h.outputs,h.counts⟩
  unfold reduceAction at hr
  split_ifs at hr with hact hchange
  · cases hc : consultRecovery p s0 step event.observation inputs with
    | some r' =>
      rw [hc] at hr
      cases hr
      exact move_consultRecovery kind was h (.inr ⟨acts,by simpa using hact⟩) hc
    | none =>
      rw [hc] at hr
      cases hr
      refine .pause rfl ⟨h.runID,h.digest,h.stepIndex,h.actions,h.attempt,h.outputs,h.counts⟩
        (.before (.inl was) (.inr h.resumePhase)) h.recovery ?_ (by simp [kind]) (.inl h.epoch)
      intro hready
      rw [was] at hready
      cases hready
  · cases hr
    exact .ask kind was acts hchange rfl
      (hkeeps .awaitingApproval) h.resumePhase h.recovery seen index _
      (by rfl) (by rfl) resolved (by simpa using hact) names h.epoch h.epoch
  · cases hr
    refine .act kind was acts hchange rfl (hkeeps .acting) h.resumePhase h.recovery seen index _
      (by rfl) ?_
      (by rfl) (by rfl) resolved (by simpa using hact) h.epoch h.epoch
      (congrArg Observation.id seen)
    exact actionID_congr h.runID h.stepIndex h.attempt

lemma move_reduceResolved (kind : event.kind = .observed) (was : s.phase = .observing)
    (names : event.actionID = s.actionID p)
    (resolved : event.observation.Resolved) (hr : reduceResolved p s step event inputs = .ok r) :
    Move p s step event inputs r.1 r.2 := by
  have halike : ∀ obs attempts, Alike s { s with observation := obs, attempts := attempts } :=
    fun _ _ => ⟨⟨rfl,rfl,rfl,rfl,rfl,rfl,rfl⟩,rfl,rfl,rfl,rfl⟩
  unfold reduceResolved at hr
  dsimp only at hr
  by_cases hneg : event.observation.strategyIndex < 0
  · rw [if_pos hneg] at hr
    cases hr
  rw [if_neg hneg] at hr
  split at hr
  · cases hr
  split at hr
  · cases hr
  split at hr
  · rename_i hk
    exact move_reduceExtract kind was (halike _ _) hk hr
  · rename_i hk
    exact move_reduceChecked kind was (halike _ _) (by simp [hk]) hr
  · rename_i hk
    exact move_reduceChecked kind was (halike _ _) (by simp [hk]) hr
  · rename_i hk
    exact move_reduceChecked kind was (halike _ _) (by simp [hk]) hr
  · rename_i h1 h2 h3 h4
    refine move_reduceAction kind was (halike _ _) names ?_ rfl resolved (not_lt.mp hneg) hr
    simp only [StepKind.acts,Bool.and_eq_true,decide_eq_true_eq]
    exact ⟨⟨⟨h1,h2⟩,h3⟩,h4⟩

lemma move_reduceObserved (kind : event.kind = .observed)
    (hr : reduceObserved p s step event inputs = .ok r) :
    Move p s step event inputs r.1 r.2 := by
  unfold reduceObserved at hr
  dsimp only at hr
  by_cases hphase : s.phase ≠ .observing ∧ s.phase ≠ .postAction
  · rw [if_pos hphase] at hr
    cases hr
  rw [if_neg hphase] at hr
  have was : s.phase = .observing ∨ s.phase = .postAction := by tauto
  have hretry : ∀ cause reason, Move p s step event inputs
      (retryObservation p s (s.command p step .observe) cause reason).1
      (retryObservation p s (s.command p step .observe) cause reason).2 :=
    fun cause reason => move_retryObservation (Alike.refl s) was (.inl kind) (by rfl) (by rfl)
    (by rfl) cause reason
  by_cases hbound : event.actionID ≠ s.actionID p ∨ event.observation.id = ""
  · rw [if_pos hbound] at hr
    cases hr
  rw [if_neg hbound] at hr
  by_cases hcomplete : (!event.observation.complete) = true
  · rw [if_pos hcomplete] at hr
    by_cases hpost : s.phase = .postAction
    · rw [if_neg (not_not.mpr hpost)] at hr
      cases hr
      exact hretry _ _
    · rw [if_pos hpost] at hr
      cases hr
      refine move_recovery_or_retry kind (was.resolve_right hpost) (Alike.refl s) ?_ (hretry _ _)
      intro hresolved
      simp [hresolved.1] at hcomplete
  rw [if_neg hcomplete] at hr
  by_cases hpost : s.phase = .postAction
  · rw [if_pos hpost] at hr
    exact move_advance kind was (.inl rfl) (.same (.inr hpost)) (Alike.refl s) hr
  rw [if_neg hpost] at hr
  have hobserving := was.resolve_right hpost
  by_cases hsingle : event.observation.matchCount ≠ 1 ∨ event.observation.targetID = ""
  · rw [if_pos hsingle] at hr
    cases hr
    refine move_recovery_or_retry kind hobserving (Alike.refl s) ?_ (hretry _ _)
    intro hresolved
    exact hsingle.elim (fun h => h hresolved.2.1) hresolved.2.2
  · rw [if_neg hsingle] at hr
    simp only [not_or,not_not] at hsingle
    exact move_reduceResolved kind hobserving (not_not.mp (not_or.mp hbound).1)
      ⟨by simpa using hcomplete,hsingle⟩ hr

lemma move_reduceApprove (kind : event.kind = .approve) (h : reduceApprove p s step event = .ok r) :
    Move p s step event inputs r.1 r.2 := by
  unfold reduceApprove at h
  split_ifs at h with hbad
  cases h
  simp only [not_or,ne_eq,not_not] at hbad
  refine .approve kind hbad.1 hbad.2 ?_ ?_ ?_ ?_ ?_ _ ?_ ?_ ?_ ?_ ?_ ?_ ?_
  exacts [rfl,⟨rfl,rfl,rfl,rfl,rfl,rfl,rfl⟩,rfl,rfl,rfl,rfl,actionID_congr rfl rfl rfl,rfl,rfl,rfl,
    rfl,rfl]

lemma move_reduceDeny (kind : event.kind = .deny) (h : reduceDeny p s event = .ok r) :
    Move p s step event inputs r.1 r.2 := by
  unfold reduceDeny at h
  split_ifs at h with hbad
  cases h
  refine move_end (.inr (.inl rfl)) ⟨rfl,rfl,rfl,rfl,rfl,rfl,rfl⟩ ?_ (by simp [kind]) (.inl rfl)
  intro ha
  exact (hbad (.inl (by simp [ha]))).elim

lemma move_reduceSent (kind : event.kind = .receipt) (sent : event.delivery = .sent)
    (was : s.phase = .acting) :
    Move p s step event inputs (reduceSent p s step).1 (reduceSent p s step).2 := by
  unfold reduceSent
  by_cases hbusy : s.activeRecovery ≠ ""
  · rw [if_pos hbusy]
    refine .recovered kind sent was hbusy ?_ ?_ ?_ ?_ _ ?_ ?_ ?_ ?_
    exacts [rfl,⟨rfl,rfl,rfl,rfl,rfl,rfl,rfl⟩,rfl,rfl,rfl,rfl,rfl,rfl]
  · rw [if_neg hbusy]
    refine .delivered kind sent was (not_not.mp hbusy) ?_ ?_ ?_ ?_ _ ?_ ?_ ?_ ?_
    exacts [rfl,⟨rfl,rfl,rfl,rfl,rfl,rfl,rfl⟩,rfl,not_not.mp hbusy,rfl,rfl,rfl,rfl]

/-- A run that fails on a receipt of an act that was not sent. -/
lemma move_notSent_fail {t : State} (kind : event.kind = .receipt)
    (notSent : event.delivery = .notSent)
    (was : s.phase = .acting) (phase : t.phase = .failed)
    (digest : t.capabilitySHA256 = s.capabilitySHA256)
    (attempt : t.actionAttempt = s.actionAttempt ∨ t.actionAttempt = s.actionAttempt+1)
    (counts : t.recoveryCounts = s.recoveryCounts) (epoch : t.epoch = s.epoch) :
    Move p s step event inputs t [] := by
  refine .halt (.inl phase) digest (fun h => (h phase).elim) ?_ (.inl counts) (fun _ => .inr ⟨kind,
    notSent⟩) (.inr ?_)
    (.inl epoch)
  · exact attempt.imp_right (fun h => .inr ⟨was,h⟩)
  · simp [kind,notSent]

lemma move_reduceNotSent (kind : event.kind = .receipt) (notSent : event.delivery = .notSent)
    (was : s.phase = .acting) :
    Move p s step event inputs (reduceNotSent p s step event).1
    (reduceNotSent p s step event).2 := by
  unfold reduceNotSent
  dsimp only
  by_cases hext : event.failureCode = FailureCode.externalInteraction.name
  · rw [if_pos hext]
    by_cases hlimit : s.actions+1 > p.spec.limits.maxActions
    · rw [if_pos hlimit]
      exact move_notSent_fail kind notSent was rfl rfl (.inr rfl) rfl rfl
    · rw [if_neg hlimit]
      exact .refused kind notSent was rfl rfl rfl 1 (.inl ⟨rfl,not_lt.mp hlimit⟩) ⟨rfl,rfl,rfl,rfl,
        rfl,rfl,rfl⟩ rfl
  rw [if_neg hext]
  by_cases hchanged : event.failureCode = FailureCode.windowChanged.name ∨
      event.failureCode = FailureCode.stateChanged.name
  · rw [if_pos hchanged]
    by_cases hlast : s.actionAttempt+1 ≥ p.spec.limits.observationAttempts
    · rw [if_pos hlast]
      refine .refused kind notSent was rfl rfl rfl 0 (.inr ⟨rfl,hlast⟩) ⟨rfl,rfl,rfl,?_,rfl,rfl,
        rfl⟩ rfl
      exact (add_zero _).symm
    rw [if_neg hlast]
    by_cases hlimit : s.actions+1 > p.spec.limits.maxActions
    · rw [if_pos hlimit]
      exact move_notSent_fail kind notSent was rfl rfl (.inr rfl) rfl rfl
    · rw [if_neg hlimit]
      refine .retried kind notSent was ?_ ?_ ?_ (not_lt.mp hlimit)
        (not_le.mp hlast) ?_ _ ?_ ?_ ?_ ?_
      exacts [rfl,rfl,rfl,⟨rfl,rfl,rfl,rfl,rfl,rfl,rfl⟩,rfl,rfl,rfl,rfl]
  · rw [if_neg hchanged]
    exact move_notSent_fail kind notSent was rfl rfl (.inl rfl) rfl rfl

lemma move_reduceReceipt (kind : event.kind = .receipt) (h : reduceReceipt p s step event = .ok r) :
    Move p s step event inputs r.1 r.2 := by
  unfold reduceReceipt at h
  split_ifs at h with hbad
  have was : s.phase = .acting := by
    by_contra hnot
    exact hbad (.inl hnot)
  split at h
  · rename_i hd
    cases h
    exact move_reduceSent kind hd was
  · rename_i hd
    cases h
    exact move_reduceNotSent kind hd was
  · rename_i hd
    cases h
    refine .halt (.inr (.inr rfl)) rfl (fun _ => rfl) (.inl rfl) (.inl rfl) (fun _ =>
      .inl rfl) (.inr ?_)
      (.inl rfl)
    simp [kind,hd]
  · cases h

lemma move_reduceApprovalChanged (kind : event.kind = .approvalChanged)
    (h : reduceApprovalChanged p s step event = .ok r) : Move p s step event inputs r.1 r.2 := by
  unfold reduceApprovalChanged at h
  split_ifs at h with hbad
  cases h
  simp only [not_or,ne_eq,not_not] at hbad
  refine .withdraw kind hbad.1 hbad.2.2 ?_ ?_ ?_ ?_ _ ?_ ?_ ?_ ?_
  exacts [rfl,⟨rfl,rfl,rfl,rfl,rfl,rfl,rfl⟩,rfl,rfl,rfl,rfl,rfl,rfl]

lemma move_reduceExternalInteraction (kind : event.kind = .externalInteraction)
    (h : reduceExternalInteraction s event = .ok r) : Move p s step event inputs r.1 r.2 := by
  unfold reduceExternalInteraction at h
  split_ifs at h with hbad
  cases h
  have was : s.phase = .observing ∨ s.phase = .postAction := by tauto
  refine .pause rfl ⟨rfl,rfl,rfl,rfl,rfl,rfl,rfl⟩ ?_ rfl ?_ (by simp [kind]) (.inl rfl)
  · rcases was with hs | hs
    · exact .before (.inl hs) (.inl (congrArg some hs))
    · exact .after hs (congrArg some hs)
  · intro hready
    rcases was with hs | hs <;> rw [hs] at hready <;> cases hready

lemma move_reduceHumanUnknown (kind : event.kind = .humanUnknown)
    (h : reduceHumanUnknown s event = .ok r) : Move p s step event inputs r.1 r.2 := by
  unfold reduceHumanUnknown at h
  split_ifs at h
  cases h
  exact move_end (.inr (.inr rfl)) ⟨rfl,rfl,rfl,rfl,rfl,rfl,
    rfl⟩ (fun _ => rfl) (by simp [kind]) (.inl rfl)

lemma move_reduceError (kind : event.kind = .error) :
    Move p s step event inputs (reduceError s event).1 (reduceError s event).2 := by
  unfold reduceError
  by_cases hu : s.phase = .acting ∨ s.phase = .postAction ∨ event.delivery = .unknown
  · rw [if_pos hu]
    exact move_end (.inr (.inr rfl)) ⟨rfl,rfl,rfl,rfl,rfl,rfl,
      rfl⟩ (fun _ => rfl) (by simp [kind]) (.inl rfl)
  · rw [if_neg hu]
    exact move_end (.inl rfl) ⟨rfl,rfl,rfl,rfl,rfl,rfl,
      rfl⟩ (fun h => (hu (.inl h)).elim) (by simp [kind]) (.inl rfl)

/-- A live run moves in one of these ways on every event it takes. -/
theorem move_reduceLive (live : s.terminal = false) (h : reduceLive p s step event inputs = .ok r) :
    Move p s step event inputs r.1 r.2 := by
  unfold reduceLive at h
  cases hk : event.kind <;> rw [hk] at h <;> dsimp only at h
  case cancel =>
    cases h
    exact move_reduceCancel hk
  case pause => exact move_reducePause hk live h
  case start => exact move_reduceStart hk h
  case resume => exact move_reduceResume hk h
  case observeFailed => exact move_reduceObserveFailed hk h
  case observed => exact move_reduceObserved hk h
  case approve => exact move_reduceApprove hk h
  case deny => exact move_reduceDeny hk h
  case receipt => exact move_reduceReceipt hk h
  case approvalChanged => exact move_reduceApprovalChanged hk h
  case externalInteraction => exact move_reduceExternalInteraction hk h
  case humanUnknown => exact move_reduceHumanUnknown hk h
  case error =>
    cases h
    exact move_reduceError hk
  case fence => cases h
  case other => cases h

end

lemma terminal_finishConclude (p : Program) (s : State) (step : Step) :
    (finishConclude p s step).1.terminal = true := by
  unfold finishConclude State.terminal
  dsimp only
  split_ifs <;> rfl

lemma terminal_of_ended {t : State} (h : t.phase = .failed ∨ t.phase = .cancelled ∨
    t.phase = .unknown) :
    t.terminal = true := by
  rcases h with h | h | h <;> simp [State.terminal,h]

section
variable {p : Program} {s t : State} {step : Step} {event : Event} {inputs : Table String Value}
  {cmds : List Command}

/-- A command goes to the step a run is at, and leaves the run at work. -/
lemma Move.commands_at (h : Move p s step event inputs t cmds)
    (here : p.spec.steps[s.stepIndex]? = some step)
    {c : Command} (hc : c ∈ cmds) :
    (t.phase = .observing ∨ t.phase = .awaitingApproval ∨ t.phase = .acting ∨
      t.phase = .postAction) ∧
    ∃ step', p.spec.steps[t.stepIndex]? = some step' ∧ c.step.id = step'.id := by
  have hat : ∀ {t : State}, t.stepIndex = s.stepIndex → p.spec.steps[t.stepIndex]? = some step := by
    intro t ht
    rw [ht]
    exact here
  cases h with
  | halt | pause | startConclude | conclude | complete | refused => cases hc
  | start _ _ _ _ c' _ hstep =>
    obtain rfl := List.mem_singleton.mp hc
    exact ⟨.inl rfl,step,here,congrArg Step.id hstep⟩
  | resume _ _ _ keeps phase _ _ c' _ hstep =>
    obtain rfl := List.mem_singleton.mp hc
    refine ⟨?_,step,hat keeps.stepIndex,congrArg Step.id hstep⟩
    rw [phase]
    split_ifs <;> simp
  | again was phase keeps _ _ c' _ hstep =>
    obtain rfl := List.mem_singleton.mp hc
    refine ⟨?_,step,hat keeps.stepIndex,congrArg Step.id hstep⟩
    rw [phase]
    rcases was with h | h <;> simp [h]
  | recover _ _ _ _ _ _ _ _ phase keeps _ _ c' _ _ _ hstep =>
    obtain rfl := List.mem_singleton.mp hc
    exact ⟨by simp [phase],step,hat keeps.stepIndex,hstep.1⟩
  | enter _ _ _ _ _ into there _ _ phase keeps _ _ c' _ hstep =>
    obtain rfl := List.mem_singleton.mp hc
    refine ⟨by simp [phase],into,?_,congrArg Step.id hstep⟩
    rw [keeps.stepIndex]
    exact there
  | ask _ _ _ _ phase keeps _ _ _ _ c' _ hstep =>
    obtain rfl := List.mem_singleton.mp hc
    exact ⟨by simp [phase],step,hat keeps.stepIndex,congrArg Step.id hstep⟩
  | act _ _ _ _ phase keeps _ _ _ _ c' _ _ _ hstep =>
    obtain rfl := List.mem_singleton.mp hc
    exact ⟨by simp [phase],step,hat keeps.stepIndex,congrArg Step.id hstep⟩
  | approve _ _ _ phase keeps _ _ _ c' _ _ _ hstep =>
    obtain rfl := List.mem_singleton.mp hc
    exact ⟨by simp [phase],step,hat keeps.stepIndex,congrArg Step.id hstep⟩
  | recovered _ _ _ _ phase keeps _ _ c' _ hstep =>
    obtain rfl := List.mem_singleton.mp hc
    exact ⟨by simp [phase],step,hat keeps.stepIndex,congrArg Step.id hstep⟩
  | delivered _ _ _ _ phase keeps _ _ c' _ hstep =>
    obtain rfl := List.mem_singleton.mp hc
    exact ⟨by simp [phase],step,hat keeps.stepIndex,congrArg Step.id hstep⟩
  | retried _ _ _ phase _ _ _ _ keeps c' _ hstep =>
    obtain rfl := List.mem_singleton.mp hc
    exact ⟨by simp [phase],step,hat keeps.stepIndex,congrArg Step.id hstep⟩
  | withdraw _ _ _ phase keeps _ _ c' _ hstep =>
    obtain rfl := List.mem_singleton.mp hc
    exact ⟨by simp [phase],step,hat keeps.stepIndex,congrArg Step.id hstep⟩

lemma Move.commands_of_terminal (h : Move p s step event inputs t cmds)
    (here : p.spec.steps[s.stepIndex]? = some step) (ht : t.terminal = true) : cmds = [] := by
  apply List.eq_nil_iff_forall_not_mem.mpr
  intro c hc
  obtain ⟨hphase,_⟩ := h.commands_at here hc
  rcases hphase with h | h | h | h <;> simp [State.terminal,h] at ht

end

/-- What the reducer does with an event it takes: a fence moves the epoch alone, and any other event
moves a live run. -/
inductive Stepped (p : Program) (s : State) (event : Event) (inputs : Table String Value)
    (t : State)
    (cmds : List Command) : Prop
  | fence (kind : event.kind = .fence)
      (after : t = { s.clocked event with epoch := event.nextEpoch })
      (none : cmds = []) (later : s.epoch < event.nextEpoch)
  | live (kind : event.kind ≠ .fence) (step : Step) (nonterminal : s.terminal = false)
      (here : p.spec.steps[s.stepIndex]? = some step)
      (move : Move p (s.clocked event) step event inputs t cmds)
      (late : Late p (s.clocked event) → cmds = [])

theorem reduce_stepped {p : Program} {s t : State} {event : Event} {inputs : Table String Value}
    {cmds : List Command} (h : reduce p s event inputs = .ok (t,cmds)) :
    Stepped p s event inputs t cmds := by
  unfold reduce at h
  split_ifs at h with h1 h2 h3 h4 hfence hepoch hterminal
  · cases h
    exact .fence hfence rfl rfl (UInt64.not_le.mp hepoch)
  · have hlive : s.terminal = false := by simpa using hterminal
    split at h
    · cases h
    · rename_i step hstep
      dsimp only at h
      by_cases hlate : (s.clocked event).elapsedMillis > p.spec.limits.activeSeconds*1000
      · rw [if_pos hlate] at h
        cases h
        refine .live hfence step hlive hstep (.halt ?_ rfl (fun _ => rfl) (.inl rfl) (.inl rfl) ?_
          (.inl hlate) (.inl rfl)) (fun _ => rfl)
        · dsimp only
          split_ifs <;> simp
        · intro ha
          exact .inl (if_pos ha)
      · rw [if_neg hlate] at h
        exact .live hfence step hlive hstep (move_reduceLive (r := (t,cmds)) hlive h) (fun hl =>
          (hlate hl).elim)

/-- An event that is taken has the epoch of its state. -/
lemma reduce_epoch {p : Program} {s : State} {event : Event} {inputs : Table String Value}
    {r : State × List Command}
    (h : reduce p s event inputs = .ok r) : event.epoch = s.epoch := by
  unfold reduce at h
  split_ifs at h with h1 h2 h3
  all_goals
    simp only [not_or,not_not] at h3
    exact h3.2.2

/-- An event that the reducer took, with the state before and after it and the commands it gave. -/
structure Accepted where
  before : State
  event : Event
  after : State
  commands : List Command

/-- The runs of a program from a state: the events taken so far, and the state they led to. -/
inductive Run (p : Program) (start : State) : List Accepted → State → Prop
  | nil : Run p start [] start
  | snoc {hist : List Accepted} {s s' : State} {event : Event} {inputs : Table String Value}
      {cmds : List Command} (run : Run p start hist s)
      (h : reduce p s event inputs = .ok (s',cmds)) :
      Run p start (hist ++ [⟨s,event,s',cmds⟩]) s'

/-- A run up to one of its events, and that event. -/
lemma Run.split {p : Program} {start s : State} {pre post : List Accepted} {a : Accepted}
    (run : Run p start (pre ++ a :: post) s) :
    Run p start pre a.before ∧ ∃ inputs, reduce p a.before a.event inputs = .ok (a.after,
      a.commands) := by
  generalize hhist : pre ++ a :: post = hist at run
  induction run generalizing post with
  | nil =>
    have := congrArg List.length hhist
    simp at this
  | @snoc hist s s' event inputs cmds run h ih =>
    rcases List.eq_nil_or_concat post with rfl | ⟨post',b,rfl⟩
    · have hlast : pre = hist ∧ a = (⟨s,event,s',cmds⟩ : Accepted) := by
        have := List.append_inj' hhist rfl
        simpa using this
      obtain ⟨rfl,rfl⟩ := hlast
      exact ⟨run,inputs,h⟩
    · have hends : (pre ++ a :: post') ++ [b] = hist ++ [⟨s,event,s',cmds⟩] := by
        simpa using hhist
      exact ih (List.append_inj' hends rfl).1

lemma newState_ready {p : Program} {runID sessionID : String} {epoch : UInt64} {start : State}
    (h : newState p runID sessionID epoch = .ok start) :
    start.phase = .ready ∧ start.actions = 0 := by
  unfold newState at h
  split_ifs at h
  cases h
  exact ⟨rfl,rfl⟩

/-- The last event of a run, and the run before it. -/
lemma Run.last {p : Program} {start s : State} {hist : List Accepted} {a : Accepted}
    (run : Run p start (hist ++ [a]) s) : Run p start hist a.before ∧ s = a.after ∧
      ∃ inputs, reduce p a.before a.event inputs = .ok (a.after,a.commands) := by
  generalize hall : hist ++ [a] = all at run
  cases run with
  | nil =>
    have := congrArg List.length hall
    simp at this
  | @snoc hist' s0 s' event inputs cmds run h =>
    have hlast : hist = hist' ∧ a = (⟨s0,event,s,cmds⟩ : Accepted) := by
      have := List.append_inj' hall rfl
      simpa using this
    obtain ⟨rfl,rfl⟩ := hlast
    exact ⟨run,rfl,inputs,h⟩

/-- What holds after an event and survives every event since holds now. -/
lemma Run.since {p : Program} {start s : State} {pre mid : List Accepted} {a : Accepted}
    {P : State → Prop}
    (run : Run p start (pre ++ a :: mid) s) (h0 : P a.after)
    (hstep : ∀ s t event inputs cmds, Stepped p s event inputs t cmds → P s → P t) : P s := by
  induction mid using List.reverseRecOn generalizing s with
  | nil =>
    obtain ⟨_,rfl,_⟩ := run.last
    exact h0
  | append_singleton mid b ih =>
    have hrun : Run p start ((pre ++ a :: mid) ++ [b]) s := by simpa using run
    obtain ⟨hbefore,rfl,inputs,hreduce⟩ := hrun.last
    exact hstep _ _ _ _ _ (reduce_stepped hreduce) (ih hbefore)

end Manvi.Workflow
