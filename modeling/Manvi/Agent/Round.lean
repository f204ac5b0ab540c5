import Manvi.Agent.LoopRules

/-! One round of the loop as a chain of phases. A property of a turn is a choice of what holds
between the phases that each phase carries on. -/
namespace Manvi.Agent
open Manvi.LLM Manvi.Session Manvi.Program

/-- The step is open, and nothing was answered in it yet. -/
def View.entered (v : View) : View :=
  { v.mark .stepStart with spent := { StepEndData.zero with noResponse := true }, stepOpen := true }

def View.sent (v : View) : View := { v with requests := v.requests+1 }

/-- The message of a response is recorded, and its calls are open. -/
def View.answered (v : View) (m : Message) : View :=
  { v.sent.mark (.assistantMessage m) with openCalls := (toolCalls m).map ToolCall.id }

/-- A call is given its result. -/
def View.resolved (v : View) (d : ToolResultData) : View :=
  { v.mark (.toolResult d) with openCalls := v.openCalls.erase d.toolCallID }

def View.costs (v : View) (n : ℕ) : View := { v with budgetSpent := v.budgetSpent+n }

/-- A step whose response is asked for again. -/
def View.retried (v : View) (step attempt : ℕ) : View :=
  { v.costs 1 with nullRetries := attempt }.mark (.note (.nullResponseRetried step attempt))

/-- The checkpoint's words are given to the model. -/
def View.bounced (v : View) (m : Message) : View :=
  { v.mark (.userMessage m originHarness) with bounces := v.bounces+1 }

namespace Loop

/-- What holds at each point of a round, and how each phase carries it on. A round that is left
early leaves with R. -/
structure Round (w : World) (cfg : Config) (R : Exit → View → Prop) where
  before : View → Prop
  entered : View → Prop
  absorbed : Response → View → Prop
  dispatching : Response → List ToolCall → View → Prop
  charged : Response → View → Prop
  next : View → Prop
  stopped : View → Prop
  stop : ∀ v, before v → cfg.maxSteps ≤ v.budgetSpent → stopped v
  enter : ∀ v, before v → v.budgetSpent < cfg.maxSteps → entered v.entered
  absorb : ∀ v (response : Response) charge, entered v → Chargeable v.costNanoUSD charge →
    absorbed response ((v.answered response.message).absorbed response.usage charge)
  retry : ∀ v response step, absorbed response v → toolCalls response.message = [] →
    v.nullRetries < maxNullRetries → next (v.retried step (v.nullRetries+1)).ended
  dispatch : ∀ v response, absorbed response v → dispatching response (toolCalls response.message) v
  resolve : ∀ v response call calls d, dispatching response (call :: calls) v →
    d.toolCallID = call.id →
    dispatching response calls (v.resolved d)
  charge : ∀ v response n, dispatching response [] v → 1 ≤ n → n ≤ stallCost →
    charged response (v.costs n)
  report : ∀ v response m, charged response v → next (v.mark (.userMessage m "")).ended
  go : ∀ v response, charged response v → next v.ended
  close : ∀ v response, charged response v → stopped v.ended
  bounce : ∀ v response m, charged response v → v.bounces < maxCheckpointBounces →
    next (v.ended.bounced m)
  leavesBefore : Leaves before R
  leavesEntered : Leaves entered R
  leavesSent : Leaves (fun v => ∃ v', entered v' ∧ v = v'.sent) R
  leavesPricing : ∀ v (response : Response), entered v →
    R .panicked { v.answered response.message with usage := v.usage.add response.usage }
  leavesAbsorbed : ∀ response, Leaves (absorbed response) R
  leavesRetry : ∀ v response, absorbed response v → v.nullRetries < maxNullRetries →
    R .failed { v.costs 1 with nullRetries := v.nullRetries+1 }
  leavesRetried : w.Refuses → ∀ v response step, absorbed response v →
    v.nullRetries < maxNullRetries →
    R .failed { v.retried step (v.nullRetries+1) with spent := StepEndData.zero }
  leavesDispatching : ∀ response calls, Leaves (dispatching response calls) R
  leavesCharged : ∀ v response, charged response v → R .failed v
  leavesReported : w.Refuses → ∀ v response m, charged response v →
    R .failed { v.mark (.userMessage m "") with spent := StepEndData.zero }
  leavesEnding : w.Refuses → ∀ v response, charged response v →
    R .failed { v with spent := StepEndData.zero }
  leavesEnded : ∀ response, Leaves (fun v => ∃ v', charged response v' ∧ v = v'.ended) R

namespace Round
variable {w : World} {cfg : Config} {R : Exit → View → Prop} {held : List LogEvent}
    (r : Round w cfg R)

/-- Where a round leaves the turn. -/
def after (stop : Bool) : View → Prop := if stop then r.stopped else r.next

lemma settleStep_rule (response : Response) :
    Phase held (r.absorbed response) (settleStep w cfg response) r.after R := by
  refine Triple.bind (Triple.when (fun _ => listen_rule w.dispatching (r.leavesAbsorbed response)))
    (fun _ => ?_)
  have hstart : Phase held (r.absorbed response) (dispatchCalls w cfg
    (toolCalls response.message) {})
      (fun _ => r.dispatching response []) R := by
    refine (dispatchCalls_rule ?_ (r.leavesDispatching response) _ _).weaken ?_ (fun _ _ hl =>
      hl) (fun _ _ hl => hl)
    · intro call calls v d hv hd
      have hresolved := r.resolve v response call calls d hv hd
      rwa [View.resolved,hd] at hresolved
    · exact fun l hl => ⟨hl.1,r.dispatch _ response hl.2⟩
  refine Triple.bind hstart (fun tally => ?_)
  refine Triple.bind (chargeStep_rule (fun v n hv hlow hhigh =>
    r.charge v response n hv hlow hhigh)) (fun _ => ?_)
  refine Triple.ite (fun _ => ?_) (fun _ => ?_)
  · refine Triple.bind (setOut_rule (g := id) (fun _ => rfl) (fun _ hv => hv)) (fun _ => ?_)
    refine Triple.bind (reportMalformed_rule (Q := fun v => ∃ v' m, r.charged response v' ∧
      v = v'.mark (.userMessage m "")) ?_ ?_) (fun _ => ?_)
    · exact fun v m hv => ⟨v,m,hv,rfl⟩
    · exact fun v hv => r.leavesCharged v response hv
    refine Triple.bind (endStep_rule (Q := r.next) ?_ ?_) (fun _ => Triple.pure (fun _ hl => hl))
    · rintro v ⟨v',m,hv,rfl⟩
      exact r.report v' response m hv
    · rintro hrefuses v ⟨v',m,hv,rfl⟩
      exact r.leavesReported hrefuses v' response m hv
  · refine Triple.bind (endStep_rule (Q := fun v => ∃ v', r.charged response v' ∧
      v = v'.ended) ?_ ?_) (fun _ => ?_)
    · exact fun v hv => ⟨v,hv,rfl⟩
    · exact fun hrefuses v hv => r.leavesEnding hrefuses v response hv
    refine Triple.ite (fun _ => ?_) (fun _ => Triple.pure ?_)
    · refine closeOrBounce_rule ?_ ?_ (r.leavesEnded response)
      · rintro v ⟨v',hv,rfl⟩
        exact r.close v' response hv
      · rintro v m ⟨v',hv,rfl⟩ hfew
        exact r.bounce v' response m hv hfew
    · rintro l ⟨hlog,v,hv,hview⟩
      refine ⟨hlog,?_⟩
      rw [hview]
      exact r.go v response hv

/-- What a round does, whatever the outside answers. -/
theorem iterate_rule (step : ℕ) : Phase held r.before (iterate w cfg step) r.after R := by
  refine Triple.bind (view_rule View.budgetSpent (fun _ => rfl)) (fun spent => Triple.ite ?_ ?_)
  · intro hspent
    refine Triple.bind (setOut_rule (Q := r.stopped) (g := id) (fun _ => rfl) ?_) (fun _ =>
      Triple.pure (fun _ hl => hl))
    rintro v ⟨hv,rfl⟩
    exact r.stop v hv hspent
  · intro hspent
    refine Triple.bind (setOut_rule (Q := fun v => r.before v ∧ v.budgetSpent < cfg.maxSteps)
      (g := id) (fun _ => rfl) ?_)
      (fun _ => ?_)
    · rintro v ⟨hv,rfl⟩
      exact ⟨hv,not_le.mp hspent⟩
    refine Triple.bind (enterStep_rule (Q := r.entered) (fun v hv => r.enter v hv.1 hv.2) ?_)
      (fun _ => ?_)
    · exact ⟨fun v hv => r.leavesBefore.failed v hv.1,fun v hv => r.leavesBefore.panicked v hv.1⟩
    refine Triple.bind (assembleRequest_rule r.leavesEntered) (fun _ => ?_)
    refine Triple.bind (streamResponse_rule (Q := fun response v => ∃ v', r.entered v' ∧
      v = v'.answered response.message) ?_ r.leavesSent) (fun response => ?_)
    · exact fun v response hv => ⟨v,hv,rfl⟩
    refine Triple.bind (absorbResponse_rule (Q := r.absorbed response) ?_
      (r.leavesAbsorbed response).failed ?_) (fun _ => ?_)
    · rintro v charge ⟨v',hv,rfl⟩ hcharge
      exact r.absorb v' response charge hv hcharge
    · rintro v ⟨v',hv,rfl⟩
      exact r.leavesPricing v' response hv
    refine Triple.bind (view_rule View.nullRetries (fun _ => rfl)) (fun retries => Triple.ite ?_ ?_)
    · rintro ⟨hnull,hfew⟩
      have hcalls : toolCalls response.message = [] := by
        unfold isNullResponse at hnull
        have hempty : response.message.content = [] := by
          simp only [Bool.and_eq_true,List.isEmpty_iff] at hnull
          exact hnull.1.1
        rw [toolCalls,hempty]
        rfl
      refine Triple.bind (modify_rule (Q := fun v => ∃ v', r.absorbed response v' ∧
        v'.nullRetries = retries ∧
        v = { v' with nullRetries := retries+1 }) (f := fun v => { v with
          nullRetries := retries+1 })
        (fun _ => ⟨rfl,rfl⟩) (fun v hv => ⟨v,hv.1,hv.2,rfl⟩)) (fun _ => ?_)
      refine Triple.bind (retryNullResponse_rule (Q := r.next) ?_ ?_ ?_) (fun _ =>
        Triple.pure (fun _ hl => hl))
      · rintro v ⟨v',hv,rfl,rfl⟩
        exact r.retry v' response step hv hcalls hfew
      · rintro v ⟨v',hv,rfl,rfl⟩
        exact r.leavesRetry v' response hv hfew
      · rintro hrefuses v ⟨v',hv,rfl,rfl⟩
        exact r.leavesRetried hrefuses v' response step hv hfew
    · intro _
      exact (r.settleStep_rule response).weaken (fun _ hl => ⟨hl.1,hl.2.1⟩) (fun _ _ hl =>
        hl) (fun _ _ hl => hl)

end Round

/-- What every round carries on, with one round less to go, holds when the loop is left. -/
theorem rounds_rule {w : World} {cfg : Config} {R : Exit → View → Prop} {held : List LogEvent}
    {J : ℕ → View → Prop} {S : View → Prop}
    (hround : ∀ fuel step, Phase held (J (fuel+1)) (iterate w cfg step) (fun stop => if stop then
      S else J fuel) R)
    (hout : ∀ v, J 0 v → R .outOfFuel v) (fuel step : ℕ) :
    Phase held (J fuel) (rounds w cfg fuel step) (fun _ => S) R := by
  induction fuel generalizing step with
  | zero => exact Triple.exit (fun l hl => ⟨hl.1,hout _ hl.2⟩)
  | succ fuel ih =>
    refine Triple.bind (hround fuel step) (fun stop => Triple.ite (fun hstop => ?_)
      (fun hstop => ?_))
    · subst hstop
      exact Triple.pure (fun _ hl => hl)
    · rw [Bool.not_eq_true] at hstop
      subst hstop
      exact ih (step+1)

end Loop

end Manvi.Agent
