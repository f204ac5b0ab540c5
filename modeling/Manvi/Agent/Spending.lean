import Manvi.Agent.Turn

/-! The step budget is a hard ceiling: on the requests of a turn, on its retries and on its
bounces. -/
namespace Manvi.Agent
open Manvi.LLM Manvi.Session Manvi.Program

/-- A message that the harness put into the history. -/
def isHarness : LogEvent → Bool
  | .userMessage _ origin => origin = originHarness
  | _ => false

/-- The record of a retry of a response that carried nothing. -/
def isRetry : LogEvent → Bool
  | .note (.nullResponseRetried _ _) => true
  | _ => false

lemma isMark_of_isHarness {e : LogEvent} (h : isHarness e = true) : e.isMark = true := by
  cases e with
  | userMessage _ _ => rfl
  | _ => cases h

lemma isMark_of_isRetry {e : LogEvent} (h : isRetry e = true) : e.isMark = true := by
  cases e with
  | note n =>
    cases n with
    | nullResponseRetried _ _ => rfl
    | _ => cases h
  | _ => cases h

/-- What a turn has used up: by its own counters, and by its records. -/
structure Meter where
  requests : ℕ
  budgetSpent : ℕ
  nullRetries : ℕ
  bounces : ℕ
  injected : ℕ
  retried : ℕ

namespace View

def meter (v : View) : Meter :=
  ⟨v.requests,v.budgetSpent,v.nullRetries,v.bounces,v.marks.countP isHarness,v.marks.countP isRetry⟩

lemma meter_mark (v : View) {e : LogEvent} (hharness : isHarness e = false)
    (hretry : isRetry e = false) :
    (v.mark e).meter = v.meter := by
  simp [meter,mark,List.countP_append,hharness,hretry]

@[simp] lemma meter_entered (v : View) : v.entered.meter = v.meter := meter_mark v rfl rfl

@[simp] lemma meter_sent (v : View) :
    v.sent.meter = { v.meter with requests := v.requests+1 } := rfl

@[simp] lemma meter_answered (v : View) (m : Message) : (v.answered m).meter = { v.meter with
    requests := v.requests+1 } :=
  meter_mark v.sent rfl rfl

@[simp] lemma meter_absorbed (v : View) (usage : Usage) (charge : ℤ × Bool) :
    (v.absorbed usage charge).meter = v.meter := by
  unfold absorbed charged
  split_ifs <;> rfl

@[simp] lemma meter_resolved (v : View) (d : ToolResultData) : (v.resolved d).meter = v.meter :=
    meter_mark v rfl rfl

@[simp] lemma meter_costs (v : View) (n : ℕ) :
    (v.costs n).meter = { v.meter with budgetSpent := v.budgetSpent+n } := rfl

@[simp] lemma meter_retried (v : View) (step attempt : ℕ) : (v.retried step attempt).meter =
    { v.meter with
      budgetSpent := v.budgetSpent+1, nullRetries := attempt, retried := v.meter.retried+1 } := by
  simp [meter,retried,mark,costs,List.countP_append,isHarness,isRetry]

@[simp] lemma meter_bounced (v : View) (m : Message) : (v.bounced m).meter =
    { v.meter with bounces := v.bounces+1, injected := v.meter.injected+1 } := by
  simp [meter,bounced,mark,List.countP_append,isHarness,isRetry]

@[simp] lemma meter_ended (v : View) : v.ended.meter = v.meter := meter_mark v rfl rfl

@[simp] lemma meter_report (v : View) (m : Message) :
    (v.mark (.userMessage m "")).meter = v.meter := meter_mark v rfl rfl

@[simp] lemma meter_unspent (v : View) : { v with spent := StepEndData.zero }.meter = v.meter := rfl

@[simp] lemma meter_unwound (v : View) (id : CallID) (ids : List CallID) :
    (v.unwound id ids).meter = v.meter :=
  meter_mark v rfl rfl

@[simp] lemma meter_begun (v : View) : v.begun.meter = v.fresh.meter := meter_mark v.fresh rfl rfl

end View

/-- The ceilings of a turn. -/
structure Ceilings (cfg : Config) (m : Meter) : Prop where
  requests : m.requests ≤ cfg.maxSteps
  budgetSpent : m.budgetSpent ≤ cfg.maxSteps+stallCost-1
  nullRetries : m.nullRetries ≤ maxNullRetries
  bounces : m.bounces ≤ maxCheckpointBounces
  injected : m.injected = m.bounces
  retried : m.retried ≤ m.nullRetries

/-- Between rounds: every request was paid for, and the rounds that are left are enough. -/
structure Between (cfg : Config) (fuel : ℕ) (m : Meter) : Prop extends Ceilings cfg m where
  paid : m.requests ≤ m.budgetSpent
  enough : cfg.maxSteps < m.budgetSpent+fuel
  left : 0 < fuel

/-- In a round, before its step is charged. -/
structure InStep (cfg : Config) (fuel : ℕ) (m : Meter) : Prop extends Ceilings cfg m where
  paid : m.requests ≤ m.budgetSpent+1
  affordable : m.budgetSpent < cfg.maxSteps
  enough : cfg.maxSteps < m.budgetSpent+(fuel+1)

section
variable {cfg : Config} {fuel : ℕ} {m : Meter}

lemma Between.enter (h : Between cfg (fuel+1) m) (hspent : m.budgetSpent < cfg.maxSteps) :
    InStep cfg fuel m :=
  ⟨h.toCeilings,by have := h.paid; omega,hspent,h.enough⟩

lemma InStep.send (h : InStep cfg fuel m) (hpaid : m.requests ≤ m.budgetSpent) :
    InStep cfg fuel { m with requests := m.requests+1 } := by
  have hafford := h.affordable
  have hrequests : m.requests+1 ≤ cfg.maxSteps := by omega
  exact ⟨⟨hrequests,h.budgetSpent,h.nullRetries,h.bounces,h.injected,h.retried⟩,
    by simpa using hpaid,h.affordable,h.enough⟩

/-- A step that is charged leaves a round less to go, and at least one. -/
lemma InStep.charge (h : InStep cfg fuel m) {n : ℕ} (hlow : 1 ≤ n) (hhigh : n ≤ stallCost) :
    Between cfg fuel { m with budgetSpent := m.budgetSpent+n } := by
  have hafford := h.affordable
  have hpaid := h.paid
  have henough := h.enough
  have hbudget : m.budgetSpent+n ≤ cfg.maxSteps+stallCost-1 := by omega
  refine ⟨⟨h.requests,hbudget,h.nullRetries,h.bounces,h.injected,h.retried⟩,?_,?_,?_⟩
  · change m.requests ≤ m.budgetSpent+n
    omega
  · change cfg.maxSteps < m.budgetSpent+n+fuel
    omega
  · omega

lemma Between.retry (h : Between cfg fuel m) (hfew : m.nullRetries < maxNullRetries) :
    Between cfg fuel { m with nullRetries := m.nullRetries+1, retried := m.retried+1 } := by
  have hretried := h.retried
  refine ⟨⟨h.requests,h.budgetSpent,hfew,h.bounces,h.injected,?_⟩,h.paid,h.enough,h.left⟩
  change m.retried+1 ≤ m.nullRetries+1
  omega

lemma Between.bounce (h : Between cfg fuel m) (hfew : m.bounces < maxCheckpointBounces) :
    Between cfg fuel { m with bounces := m.bounces+1, injected := m.injected+1 } := by
  have hinjected := h.injected
  refine ⟨⟨h.requests,h.budgetSpent,h.nullRetries,hfew,?_,h.retried⟩,h.paid,h.enough,h.left⟩
  change m.injected+1 = m.bounces+1
  omega

end

namespace Loop

/-- The ceilings hold, and the turn is not left for want of rounds. -/
def Capped (cfg : Config) (left : Option Exit) (v : View) : Prop :=
  left ≠ some .outOfFuel ∧ Ceilings cfg v.meter

lemma leaves_capped {cfg : Config} {P : View → Prop} (h : ∀ v, P v → Ceilings cfg v.meter) :
    Leaves P (fun e => Capped cfg (some e)) :=
  ⟨fun v hv => ⟨by decide,h v hv⟩,fun v hv => ⟨by decide,h v hv⟩⟩

/-- One round keeps the ceilings, and uses up one of the rounds that are left. -/
def spendingRound (w : World) (cfg : Config) (fuel : ℕ) :
    Round w cfg (fun e => Capped cfg (some e)) where
  before v := Between cfg (fuel+1) v.meter
  entered v := InStep cfg fuel v.meter ∧ v.meter.requests ≤ v.meter.budgetSpent
  absorbed _ v := InStep cfg fuel v.meter
  dispatching _ _ v := InStep cfg fuel v.meter
  charged _ v := Between cfg fuel v.meter
  next v := Between cfg fuel v.meter
  stopped v := Ceilings cfg v.meter
  stop _ hv _ := hv.toCeilings
  enter v hv hspent := by
    rw [View.meter_entered]
    exact ⟨hv.enter hspent,hv.paid⟩
  absorb v response charge hv _ := by
    rw [View.meter_absorbed,View.meter_answered]
    exact hv.1.send hv.2
  retry v response step hv _ hfew := by
    rw [View.meter_ended,View.meter_retried]
    exact (hv.charge (by decide) (by decide)).retry hfew
  dispatch _ _ hv := hv
  resolve v response call calls d hv _ := by
    rw [View.meter_resolved]
    exact hv
  charge v response n hv hlow hhigh := hv.charge hlow hhigh
  report v response m hv := by
    rw [View.meter_ended,View.meter_report]
    exact hv
  go v response hv := by
    rw [View.meter_ended]
    exact hv
  close v response hv := by
    rw [View.meter_ended]
    exact hv.toCeilings
  bounce v response m hv hfew := by
    rw [View.meter_bounced,View.meter_ended]
    exact hv.bounce hfew
  leavesBefore := leaves_capped (fun _ hv => hv.toCeilings)
  leavesEntered := leaves_capped (fun _ hv => hv.1.toCeilings)
  leavesSent := by
    apply leaves_capped
    rintro v ⟨v',hv,rfl⟩
    exact (hv.1.send hv.2).toCeilings
  leavesPricing v response hv := by
    refine ⟨by decide,?_⟩
    change Ceilings cfg (v.answered response.message).meter
    rw [View.meter_answered]
    exact (hv.1.send hv.2).toCeilings
  leavesAbsorbed response := leaves_capped (fun _ hv => hv.toCeilings)
  leavesRetry v response hv hfew := by
    have hcharged := (hv.charge (n := 1) (by decide) (by decide)).toCeilings
    have hretried : v.meter.retried ≤ v.nullRetries+1 := hcharged.retried.trans (Nat.le_succ _)
    exact ⟨by decide,hcharged.requests,hcharged.budgetSpent,hfew,hcharged.bounces,hcharged.injected,
      hretried⟩
  leavesRetried hrefuses v response step hv hfew := by
    refine ⟨by decide,?_⟩
    rw [View.meter_unspent,View.meter_retried]
    exact ((hv.charge (by decide) (by decide)).retry hfew).toCeilings
  leavesDispatching response calls := leaves_capped (fun _ hv => hv.toCeilings)
  leavesCharged v response hv := ⟨by decide,hv.toCeilings⟩
  leavesReported _ v response m hv := by
    refine ⟨by decide,?_⟩
    rw [View.meter_unspent,View.meter_report]
    exact hv.toCeilings
  leavesEnding _ v response hv := ⟨by decide,hv.toCeilings⟩
  leavesEnded response := by
    apply leaves_capped
    rintro v ⟨v',hv,rfl⟩
    rw [View.meter_ended]
    exact hv.toCeilings

/-- One round that does not leave the loop is charged. -/
def chargingRound (w : World) (cfg : Config) (spent : ℕ) : Round w cfg (fun _ _ => True) where
  before v := v.budgetSpent = spent
  entered v := v.budgetSpent = spent
  absorbed _ v := v.budgetSpent = spent
  dispatching _ _ v := v.budgetSpent = spent
  charged _ v := spent+1 ≤ v.budgetSpent
  next v := spent+1 ≤ v.budgetSpent
  stopped _ := True
  stop _ _ _ := trivial
  enter _ hv _ := hv
  absorb v response charge hv _ := by
    have hmeter := congrArg Meter.budgetSpent (View.meter_absorbed
      (v.answered response.message) response.usage charge)
    exact hmeter.trans hv
  retry v response step hv _ _ := by
    change spent+1 ≤ v.budgetSpent+1
    omega
  dispatch _ _ hv := hv
  resolve _ _ _ _ _ hv _ := hv
  charge v response n hv hlow _ := by
    change spent+1 ≤ v.budgetSpent+n
    omega
  report _ _ _ hv := hv
  go _ _ hv := hv
  close _ _ _ := trivial
  bounce _ _ _ hv _ := hv
  leavesBefore := ⟨fun _ _ => trivial,fun _ _ => trivial⟩
  leavesEntered := ⟨fun _ _ => trivial,fun _ _ => trivial⟩
  leavesSent := ⟨fun _ _ => trivial,fun _ _ => trivial⟩
  leavesPricing _ _ _ := trivial
  leavesAbsorbed _ := ⟨fun _ _ => trivial,fun _ _ => trivial⟩
  leavesRetry _ _ _ _ := trivial
  leavesRetried _ _ _ _ _ _ := trivial
  leavesDispatching _ _ := ⟨fun _ _ => trivial,fun _ _ => trivial⟩
  leavesCharged _ _ _ := trivial
  leavesReported _ _ _ _ _ := trivial
  leavesEnding _ _ _ _ := trivial
  leavesEnded _ := ⟨fun _ _ => trivial,fun _ _ => trivial⟩

theorem iterate_charges {w : World} {cfg : Config} {step : ℕ} {l l' : Loop}
    (h : iterate w cfg step l = (.ok false,l')) : l.out.budgetSpent+1 ≤ l'.out.budgetSpent := by
  have hround : Phase l.log _ (iterate w cfg step) _ _ :=
    (chargingRound w cfg l.out.budgetSpent).iterate_rule step
  obtain ⟨hok,_⟩ := hround l ⟨List.prefix_rfl,rfl⟩
  exact (hok false l' h).2

/-- The ceilings of the rounds of a turn. -/
lemma rounds_capped (w : World) (cfg : Config) (held : List LogEvent) :
    Phase held (fun v => Between cfg (cfg.maxSteps+1) v.meter) (rounds w cfg (cfg.maxSteps+1) 1)
      (fun _ v => Ceilings cfg v.meter) (fun e => Capped cfg (some e)) := by
  apply rounds_rule (J := fun fuel v => Between cfg fuel v.meter)
  · intro fuel step
    refine ((spendingRound w cfg fuel).iterate_rule step).weaken (fun _ hl =>
      hl) ?_ (fun _ _ hl => hl)
    intro stop l hl
    cases stop with
    | false => exact hl
    | true => exact hl
  · intro v hv
    exact absurd hv.left (Nat.lt_irrefl 0)

/-- What every turn keeps to, counted from its start. -/
lemma turn_capped (w : World) (cfg : Config) (prompt : Message) (held : List LogEvent) :
    Phase held (fun v => v.marks = []) (turn w cfg prompt) (fun _ => Capped cfg none) (fun e =>
      Capped cfg (some e)) := by
  have hfresh : ∀ v : View, v.marks = [] → Between cfg (cfg.maxSteps+1) v.fresh.meter := by
    intro v hv
    simp only [View.meter,View.fresh,hv,List.countP_nil]
    exact ⟨⟨Nat.zero_le _,Nat.zero_le _,Nat.zero_le _,Nat.zero_le _,rfl,le_rfl⟩,le_rfl,by simp,
      by simp⟩
  refine turn_rule ?_ (leaves_capped ?_) ?_ (rounds_capped w cfg held) ?_ ?_
  · exact fun v hv => ⟨by decide,(hfresh v hv).toCeilings⟩
  · rintro v ⟨v',hv,rfl⟩
    rw [View.meter_begun]
    exact (hfresh v' hv).toCeilings
  · intro v hv
    rw [View.meter_report,View.meter_begun]
    exact hfresh v hv
  · exact fun v hv => ⟨by decide,hv⟩
  · intro v hv
    refine ⟨by decide,?_⟩
    change Ceilings cfg (v.mark .turnEnd).meter
    rw [View.meter_mark v rfl rfl]
    exact hv

lemma closeOpenBoundaries_capped {w : World} {cfg : Config} {held : List LogEvent}
    {left : Option Exit} {l : Loop}
    (hl : Over held (Capped cfg left) l) :
    Over held (Capped cfg left) (closeOpenBoundaries w l) := by
  have hkept : ∀ {v v' : View}, v'.meter = v.meter → Capped cfg left v → Capped cfg left v' := by
    intro v v' hmeter hv
    rw [Capped,hmeter]
    exact hv
  refine closeOpenBoundaries_rule (I := fun _ => Capped cfg left) (J := Capped cfg left)
    (S := Capped cfg left)
    (fun _ hv => hv) ?_ (fun _ _ _ hv => hv) (fun _ hv => hv) ?_ (fun _ hv _ =>
      hv) ?_ ?_ (fun _ hv _ => hv)
    (fun _ _ hv => hv) hl
  · exact fun id ids v hv => hkept (View.meter_unwound v id ids) hv
  · exact fun v hv _ => hkept (View.meter_ended v) hv
  · exact fun _ v hv => hkept (View.meter_unspent v) hv
  · exact fun v hv _ => hkept (View.meter_mark v rfl rfl) hv

/-- Records that are counted are seen. -/
lemma countP_seen {p : LogEvent → Bool} (hp : ∀ e, p e = true → e.isMark = true)
    (new : List LogEvent) :
    (new.filter LogEvent.isMark).countP p = new.countP p := by
  rw [List.countP_filter]
  apply List.countP_congr
  intro e _
  rw [Bool.and_eq_true]
  exact ⟨fun h => h.1,fun h => ⟨h,hp e h⟩⟩

/-- Whatever the provider, the listeners, the tools and the log do, a turn ends, with no more
requests than the step budget, and a budget overspent by less than its costliest step. Each round
that does not end it is charged. -/
theorem run_within_stepBudget (w : World) (cfg : Config) (prompt : Message) (l : Loop) :
    (run w cfg prompt l).1 ≠ some .outOfFuel ∧
    (run w cfg prompt l).2.requests ≤ cfg.maxSteps ∧
    (∀ step m m', iterate w cfg step m = (.ok false,m') →
      m.out.budgetSpent+1 ≤ m'.out.budgetSpent) ∧
    (run w cfg prompt l).2.out.budgetSpent ≤ cfg.maxSteps+stallCost-1 ∧
    (run w cfg prompt l).2.nullRetries ≤ maxNullRetries ∧
    (run w cfg prompt l).2.out.bounces ≤ maxCheckpointBounces ∧
    ∃ new, (run w cfg prompt l).2.log = l.log ++ new ∧ new.countP isRetry ≤ maxNullRetries ∧
      new.countP isHarness ≤ maxCheckpointBounces := by
  have hstart : Over l.log (fun v => v.marks = []) l := by
    refine ⟨List.prefix_rfl,?_⟩
    simp [view]
  obtain ⟨l',hrun,hl'⟩ := run_rule (turn_capped w cfg prompt l.log) (fun _ v hv => ⟨by decide,
    hv.2⟩) hstart
  obtain ⟨⟨new,hlog⟩,hleft,hcapped⟩ := closeOpenBoundaries_capped (w := w) hl'
  rw [← hrun] at hlog hcapped
  have hmarks : ((run w cfg prompt l).2.view l.log).marks = new.filter LogEvent.isMark := by
    simp [view,← hlog]
  refine ⟨hleft,hcapped.requests,fun step m m' h => iterate_charges h,hcapped.budgetSpent,
    hcapped.nullRetries,
    hcapped.bounces,new,hlog.symm,?_,?_⟩
  · have hretried : ((run w cfg prompt l).2.view l.log).marks.countP isRetry ≤ maxNullRetries :=
      hcapped.retried.trans hcapped.nullRetries
    rwa [hmarks,countP_seen (fun _ he => isMark_of_isRetry he)] at hretried
  · have hinjected : ((run w cfg prompt l).2.view l.log).marks.countP isHarness ≤
      maxCheckpointBounces :=
      hcapped.injected.le.trans hcapped.bounces
    rwa [hmarks,countP_seen (fun _ he => isMark_of_isHarness he)] at hinjected

end Loop

end Manvi.Agent
