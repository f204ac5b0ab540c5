import Manvi.Workflow.Dispatch

/-! The budgets of a run: what is charged for an act before it goes out. -/
namespace Manvi.Workflow
open Manvi.Encoding

/-- The acts of a record that no change of approval took back: it takes back the last one. -/
def standing (hist : List Accepted) : List Command :=
  hist.foldl (fun acts a =>
    (if a.event.kind = .approvalChanged ∧ a.after.phase = .observing then
      acts.dropLast else acts) ++
      a.commands.filter (fun c => c.kind = .act)) []

/-- The acts of a record that carry out a recovery. -/
def applications (hist : List Accepted) (id : String) : List Command :=
  (hist.flatMap Accepted.commands).filter (fun c => c.kind = .act ∧ c.recoveryID = id)

/-- An event addressed to a run in its present state. -/
structure Event.Follows (event : Event) (s : State) : Prop where
  run : event.runID = s.runID
  session : event.sessionID = s.sessionID
  epoch : event.epoch = s.epoch
  sequence : event.sequence ≠ 0 ∧ event.sequence = s.sequence+1
  clock : s.elapsedMillis ≤ event.elapsedMillis

/-- The budgets of a run are ceilings, and its state is one that the reducer can go on from. -/
structure WithinBudget (p : Program) (hist : List Accepted) (s : State) : Prop where
  actions : s.phase ≠ .failed → s.actions ≤ p.spec.limits.maxActions
  acts : ((standing hist).length : ℤ) ≤ p.spec.limits.maxActions
  recoveries : ∀ r ∈ p.spec.recoveries, (s.recoveryCounts.get r.id).getD 0 ≤ r.max ∧
    ((applications hist r.id).length : ℤ) ≤ r.max
  attempt : 0 ≤ s.actionAttempt ∧ s.actionAttempt ≤ p.spec.limits.observationAttempts
  inside : s.terminal = false → ∃ step, p.spec.steps[s.stepIndex]? = some step
  cancels : s.terminal = false → ∀ event inputs, event.kind = .cancel → event.Follows s →
    ∃ t cmds, reduce p s event inputs = .ok (t,cmds)

/-- A record that begins with a start. -/
def Begins (hist : List Accepted) : Prop := ∃ a rest, hist = a :: rest ∧ a.event.kind = .start

lemma Run.of_nil {p : Program} {start s : State} (run : Run p start [] s) : s = start := by
  generalize hhist : ([] : List Accepted) = hist at run
  cases run with
  | nil => rfl
  | snoc => simp at hhist

/-- What a start leads to and every later event keeps holds after a run that begins with a start. -/
lemma Run.from_start {p : Program} {start s : State} {hist : List Accepted}
    {P : List Accepted → State → Prop}
    (first : ∀ t event inputs cmds, event.kind = .start → Stepped p start event inputs t cmds →
      P [⟨start,event,t,cmds⟩] t)
    (next : ∀ hist s t event inputs cmds, Stepped p s event inputs t cmds → P hist s →
      P (hist ++ [⟨s,event,t,cmds⟩]) t)
    (run : Run p start hist s) (hbegins : Begins hist) : P hist s := by
  induction run with
  | nil =>
    obtain ⟨a,rest,h,_⟩ := hbegins
    cases h
  | @snoc hist s t event inputs cmds run h ih =>
    have hstep := reduce_stepped h
    obtain ⟨a,rest,ha,hkind⟩ := hbegins
    cases hist with
    | nil =>
      obtain rfl := run.of_nil
      cases ha
      exact first t event inputs cmds hkind hstep
    | cons b more =>
      obtain ⟨rfl,_⟩ := List.cons.inj ha
      exact next _ _ _ _ _ _ hstep (ih ⟨_,_,rfl,hkind⟩)

section
variable {hist : List Accepted} {a : Accepted}

lemma filter_act_of_still {cmds : List Command} (h : Still cmds) :
    cmds.filter (fun c => c.kind = .act) = [] := by
  apply List.filter_eq_nil_iff.mpr
  intro c hc
  simpa using h c hc

lemma standing_snoc : standing (hist ++ [a]) =
    (if a.event.kind = .approvalChanged ∧ a.after.phase = .observing then (standing hist).dropLast
      else standing hist) ++ a.commands.filter (fun c => c.kind = .act) := by
  unfold standing
  rw [List.foldl_append]
  rfl

lemma applications_snoc (id : String) : applications (hist ++ [a]) id =
    applications hist id ++ a.commands.filter (fun c => c.kind = .act ∧ c.recoveryID = id) := by
  unfold applications
  rw [List.flatMap_append,List.filter_append,List.flatMap_singleton]

end

/-- How the number of standing acts changes with an event. -/
inductive Tallied (event : Event) (t : State) (cmds : List Command) (n : ℤ) : ℤ → Prop
  | same (stands : ¬ (event.kind = .approvalChanged ∧ t.phase = .observing)) (still : Still cmds) :
      Tallied event t cmds n n
  | act (stands : ¬ (event.kind = .approvalChanged ∧ t.phase = .observing)) (c : Command)
      (only : cmds = [c])
      (hc : c.kind = .act) : Tallied event t cmds n (n+1)
  | withdraw (kind : event.kind = .approvalChanged) (phase : t.phase = .observing) (some : 1 ≤ n)
      (still : Still cmds) : Tallied event t cmds n (n-1)

lemma Tallied.standing {event : Event} {s t : State} {cmds : List Command} {hist : List Accepted}
    {n : ℤ}
    (h : Tallied event t cmds (standing hist).length n) :
    ((standing (hist ++ [⟨s,event,t,cmds⟩])).length : ℤ) = n := by
  rw [standing_snoc]
  dsimp only
  cases h with
  | same stands still => rw [if_neg stands,filter_act_of_still still,List.append_nil]
  | act stands c only hc =>
    rw [if_neg stands,only,List.filter_cons_of_pos (by simpa using hc),List.filter_nil]
    simp
  | withdraw kind phase some still =>
    rw [if_pos ⟨kind,phase⟩,filter_act_of_still still,List.append_nil,List.length_dropLast]
    omega

/-- One when a recovery is under way. -/
def busy (s : State) : ℤ := if s.activeRecovery = "" then 0 else 1

/-- How many acts a live run has paid for, beside those that stand. -/
inductive Paid (p : Program) (n : ℤ) (s : State) : Prop
  | before (phase : s.phase = .observing ∨ s.phase = .awaitingApproval)
      (resume : s.resumePhase = none)
      (attempt : s.actionAttempt < p.spec.limits.observationAttempts)
      (paid : n+1+busy s ≤ s.actions)
  | acting (phase : s.phase = .acting) (resume : s.resumePhase = none)
      (attempt : s.actionAttempt < p.spec.limits.observationAttempts) (out : 1 ≤ n)
      (paid : n+busy s ≤ s.actions)
  | after (phase : s.phase = .postAction) (resume : s.resumePhase = none)
      (attempt : s.actionAttempt < p.spec.limits.observationAttempts) (free : s.activeRecovery = "")
      (paid : n ≤ s.actions)
  | pausedBefore (phase : s.phase = .paused) (resume : s.resumePhase ≠ some .postAction)
      (attempt : s.actionAttempt ≤ p.spec.limits.observationAttempts)
      (paid : n+1+busy s ≤ s.actions)
  | pausedAfter (phase : s.phase = .paused) (resume : s.resumePhase = some .postAction)
      (attempt : s.actionAttempt < p.spec.limits.observationAttempts) (free : s.activeRecovery = "")
      (paid : n ≤ s.actions)
  | spent (phase : s.phase = .paused) (resume : s.resumePhase ≠ some .postAction)
      (attempt : s.actionAttempt = p.spec.limits.observationAttempts) (paid : n ≤ s.actions)

section
variable {p : Program} {s t : State} {step : Step} {event : Event} {inputs : Table String Value}
  {cmds : List Command} {n : ℤ}

lemma busy_nonneg (s : State) : 0 ≤ busy s := by
  unfold busy
  split_ifs <;> simp

lemma busy_of_free (h : s.activeRecovery = "") : busy s = 0 := if_pos h

lemma busy_of_not_free (h : s.activeRecovery ≠ "") : busy s = 1 := if_neg h

lemma busy_congr (h : t.activeRecovery = s.activeRecovery) : busy t = busy s := by
  unfold busy
  rw [h]

namespace Paid

lemma attempt_le (h : Paid p n s) : s.actionAttempt ≤ p.spec.limits.observationAttempts := by
  cases h with
  | before _ _ attempt | acting _ _ attempt | after _ _ attempt | pausedAfter _ _ attempt =>
    exact attempt.le
  | pausedBefore _ _ attempt => exact attempt
  | spent _ _ attempt => exact attempt.le

lemma le_actions (h : Paid p n s) : n ≤ s.actions := by
  have := busy_nonneg s
  cases h with
  | before _ _ _ paid | pausedBefore _ _ _ paid => omega
  | acting _ _ _ _ paid => omega
  | after _ _ _ _ paid | pausedAfter _ _ _ _ paid => exact paid
  | spent _ _ _ paid => exact paid

lemma of_observing (h : Paid p n s) (was : s.phase = .observing ∨ s.phase = .awaitingApproval) :
    s.resumePhase = none ∧ s.actionAttempt < p.spec.limits.observationAttempts ∧
    n+1+busy s ≤ s.actions := by
  cases h with
  | before _ resume attempt paid => exact ⟨resume,attempt,paid⟩
  | acting phase | after phase | pausedBefore phase | pausedAfter phase | spent phase =>
    simp [phase] at was

lemma of_acting (h : Paid p n s) (was : s.phase = .acting) :
    s.resumePhase = none ∧ s.actionAttempt < p.spec.limits.observationAttempts ∧ 1 ≤ n ∧
      n+busy s ≤ s.actions := by
  cases h with
  | acting _ resume attempt out paid => exact ⟨resume,attempt,out,paid⟩
  | before phase | after phase | pausedBefore phase | pausedAfter phase | spent phase =>
    simp [was] at phase

lemma of_postAction (h : Paid p n s) (was : s.phase = .postAction) :
    s.resumePhase = none ∧ s.actionAttempt < p.spec.limits.observationAttempts ∧
    s.activeRecovery = "" ∧
      n ≤ s.actions := by
  cases h with
  | after _ resume attempt free paid => exact ⟨resume,attempt,free,paid⟩
  | before phase | acting phase | pausedBefore phase | pausedAfter phase | spent phase =>
    simp [was] at phase

lemma not_ready (h : Paid p n s) : s.phase ≠ .ready := by
  intro hready
  cases h with
  | before phase => simp [hready] at phase
  | acting phase | after phase | pausedBefore phase | pausedAfter phase | spent phase =>
    simp [hready] at phase

/-- A run that rests has paid as much as before. -/
lemma pause (h : Paid p n s) (phase : t.phase = .paused) (keeps : Keeps s t) (rests : Rests s t)
    (recovery : t.activeRecovery = s.activeRecovery) : Paid p n t := by
  have hbusy := busy_congr recovery
  cases rests with
  | after was resume =>
    obtain ⟨_,attempt,free,paid⟩ := h.of_postAction was
    exact .pausedAfter phase resume (keeps.attempt ▸ attempt) (recovery.trans free)
      (keeps.actions ▸ paid)
  | before was resume =>
    obtain ⟨hnone,attempt,paid⟩ := h.of_observing was
    refine .pausedBefore phase ?_ (keeps.attempt ▸ attempt.le) ?_
    · rcases resume with hr | hr
      · simp [hr]
      · simp [hr,hnone]
    · rw [hbusy,keeps.actions]
      exact paid
  | unstarted was => exact (h.not_ready was).elim
  | still was resume =>
    cases h with
    | before hphase => simp [was] at hphase
    | acting hphase | after hphase => simp [was] at hphase
    | pausedBefore _ hresume attempt paid =>
      refine .pausedBefore phase (resume ▸ hresume) (keeps.attempt ▸ attempt) ?_
      rw [hbusy,keeps.actions]
      exact paid
    | pausedAfter _ hresume attempt free paid =>
      exact .pausedAfter phase (resume.trans hresume) (keeps.attempt ▸ attempt)
        (recovery.trans free)
        (keeps.actions ▸ paid)
    | spent _ hresume attempt paid =>
      exact .spent phase (resume ▸ hresume) (keeps.attempt.trans attempt) (keeps.actions ▸ paid)

/-- A run that resumes has paid for what it goes back to. -/
lemma resume (h : Paid p n s) (paused : s.phase = .paused)
    (attempts : s.actionAttempt < p.spec.limits.observationAttempts) (keeps : Keeps s t)
    (phase : t.phase = if s.resumePhase = some .postAction then .postAction else .observing)
    (resumePhase : t.resumePhase = none) (recovery : t.activeRecovery = s.activeRecovery) :
    Paid p n t := by
  have hattempt : t.actionAttempt < p.spec.limits.observationAttempts := keeps.attempt ▸ attempts
  cases h with
  | before hphase => simp [paused] at hphase
  | acting hphase | after hphase => simp [paused] at hphase
  | pausedBefore _ hresume _ paid =>
    rw [if_neg hresume] at phase
    refine .before (.inl phase) resumePhase hattempt ?_
    rw [busy_congr recovery,keeps.actions]
    exact paid
  | pausedAfter _ hresume _ free paid =>
    rw [if_pos hresume] at phase
    exact .after phase resumePhase hattempt (recovery.trans free) (keeps.actions ▸ paid)
  | spent _ _ attempt => exact absurd attempt attempts.ne

end Paid

/-- An event leaves a live run paid for, or ends it under its ceilings. -/
inductive Settles (p : Program) (n : ℤ) (event : Event) (t : State) (cmds : List Command) : Prop
  | ended (terminal : t.terminal = true) (none : cmds = [])
      (actions : t.phase ≠ .failed → t.actions ≤ p.spec.limits.maxActions)
      (attempt : 0 ≤ t.actionAttempt ∧ t.actionAttempt ≤ p.spec.limits.observationAttempts)
  | live (m : ℤ) (tallied : Tallied event t cmds n m) (paid : Paid p m t)
      (actions : t.actions ≤ p.spec.limits.maxActions) (attempt : 0 ≤ t.actionAttempt)
      (here : ∃ step, p.spec.steps[t.stepIndex]? = some step)

lemma finishConclude_counters (p : Program) (step : Step) (s : State) :
    (finishConclude p s step).1.actions = s.actions ∧
    (finishConclude p s step).1.actionAttempt = 0 ∧
      (finishConclude p s step).1.recoveryCounts = s.recoveryCounts := ⟨rfl,rfl,rfl⟩

lemma Move.settles (h : Move p s step event inputs t cmds)
    (here : p.spec.steps[s.stepIndex]? = some step)
    (limit : 1 ≤ p.spec.limits.observationAttempts) (hn : 0 ≤ n) (hpaid : Paid p n s)
    (hactions : s.actions ≤ p.spec.limits.maxActions) (hattempt : 0 ≤ s.actionAttempt) :
    Settles p n event t cmds := by
  have hle := hpaid.attempt_le
  have hat : ∀ {t : State}, t.stepIndex = s.stepIndex → ∃ step,
    p.spec.steps[t.stepIndex]? = some step := by
    intro t ht
    exact ⟨step,ht ▸ here⟩
  cases h with
  | halt phase _ actions attempt =>
    refine .ended (terminal_of_ended phase) rfl (fun hne => (actions hne).le.trans hactions) ?_
    rcases attempt with h | h | ⟨was,h⟩
    · rw [h]
      exact ⟨hattempt,hle⟩
    · rw [h]
      exact ⟨le_refl 0,by omega⟩
    · have := (hpaid.of_acting was).2.1
      rw [h]
      exact ⟨by omega,by omega⟩
  | pause phase keeps rests recovery _ kind =>
    exact .live n (.same (by simp [kind.2.2.2]) (by simp [Still]))
      (hpaid.pause phase keeps rests recovery)
      (keeps.actions ▸ hactions) (keeps.attempt ▸ hattempt) (hat keeps.stepIndex)
  | start _ ready => exact (hpaid.not_ready ready).elim
  | startConclude _ ready => exact (hpaid.not_ready ready).elim
  | resume kind paused attempts keeps phase resumePhase recovery c hc =>
    refine .live n (.same (by simp [kind]) (still_single ?_))
      (hpaid.resume paused attempts keeps phase resumePhase recovery) (keeps.actions ▸ hactions)
      (keeps.attempt ▸ hattempt) (hat keeps.stepIndex)
    rw [hc]
    split_ifs <;> simp
  | again was phase keeps resumePhase recovery c hc _ kind =>
    refine .live n (.same ?_ (still_single ?_)) ?_ (keeps.actions ▸ hactions)
      (keeps.attempt ▸ hattempt)
      (hat keeps.stepIndex)
    · rcases kind with h | h <;> simp [h]
    · rw [hc]
      split_ifs <;> simp
    · rcases was with hs | hs
      · obtain ⟨hnone,attempt,paid⟩ := hpaid.of_observing (.inl hs)
        refine .before (.inl (phase.trans hs)) (resumePhase.trans hnone)
          (keeps.attempt ▸ attempt) ?_
        rw [busy_congr recovery,keeps.actions]
        exact paid
      · obtain ⟨hnone,attempt,free,paid⟩ := hpaid.of_postAction hs
        exact .after (phase.trans hs) (resumePhase.trans hnone) (keeps.attempt ▸ attempt)
          (recovery.trans free)
          (keeps.actions ▸ paid)
  | recover kind was free r mem picked room budget phase keeps resumePhase recovery c hc _ hr =>
    obtain ⟨hnone,attempt,paid⟩ := hpaid.of_observing (.inl was)
    have hacts : t.actions = s.actions+1 := keeps.actions
    have hone : busy t ≤ 1 := by
      unfold busy
      split_ifs <;> simp
    rw [busy_of_free free] at paid
    refine .live (n+1) (.act (by simp [kind]) c rfl hc) ?_ (hacts ▸ budget)
      (keeps.attempt ▸ hattempt)
      (hat keeps.stepIndex)
    refine .acting phase (resumePhase.trans hnone) (keeps.attempt ▸ attempt) (by omega) ?_
    omega
  | enter kind was next edge yields into there live budget phase keeps resumePhase recovery c hc =>
    have hacts : t.actions = s.actions+1 := keeps.actions
    have hzero : t.actionAttempt = 0 := keeps.attempt
    have hpos : t.actionAttempt < p.spec.limits.observationAttempts := by omega
    refine .live n (.same (by simp [kind]) (still_single (by simp [hc]))) ?_
      (hacts ▸ budget) hzero.ge
      ⟨into,keeps.stepIndex ▸ there⟩
    rcases was with hs | hs
    · obtain ⟨hnone,_,paid⟩ := hpaid.of_observing (.inl hs)
      refine .before (.inl phase) (resumePhase.trans hnone) hpos ?_
      rw [busy_congr recovery]
      omega
    · obtain ⟨hnone,_,free,paid⟩ := hpaid.of_postAction hs
      refine .before (.inl phase) (resumePhase.trans hnone) hpos ?_
      rw [busy_of_free (recovery.trans free)]
      omega
  | conclude _ _ _ _ _ into _ _ budget keeps =>
    obtain ⟨hacts,hzero,_⟩ := finishConclude_counters p into _
    have hsame := keeps.actions
    refine .ended (terminal_finishConclude _ _ _) rfl (fun _ => ?_) ?_
    · rw [hacts,hsame]
      exact budget
    · rw [hzero]
      exact ⟨le_refl 0,by omega⟩
  | complete kind _ _ _ _ _ phase keeps =>
    have hzero : t.actionAttempt = 0 := keeps.attempt
    have hacts : t.actions = s.actions := keeps.actions
    exact .ended (by simp [State.terminal,phase]) rfl (fun _ => hacts ▸ hactions) ⟨hzero.ge,
      by omega⟩
  | ask kind was acts change phase keeps resumePhase recovery _ _ c hc =>
    obtain ⟨hnone,attempt,paid⟩ := hpaid.of_observing (.inl was)
    refine .live n (.same (by simp [kind]) (still_single (by simp [hc]))) ?_
      (keeps.actions ▸ hactions)
      (keeps.attempt ▸ hattempt) (hat keeps.stepIndex)
    refine .before (.inr phase) (resumePhase.trans hnone) (keeps.attempt ▸ attempt) ?_
    rw [busy_congr recovery,keeps.actions]
    exact paid
  | act kind was acts read phase keeps resumePhase recovery _ _ c hc =>
    obtain ⟨hnone,attempt,paid⟩ := hpaid.of_observing (.inl was)
    refine .live (n+1) (.act (by simp [kind]) c rfl hc) ?_ (keeps.actions ▸ hactions)
      (keeps.attempt ▸ hattempt) (hat keeps.stepIndex)
    refine .acting phase (resumePhase.trans hnone) (keeps.attempt ▸ attempt) (by omega) ?_
    rw [busy_congr recovery,keeps.actions]
    exact paid
  | approve kind was names phase keeps resumePhase recovery _ c hc =>
    obtain ⟨hnone,attempt,paid⟩ := hpaid.of_observing (.inr was)
    refine .live (n+1) (.act (by simp [kind]) c rfl hc) ?_ (keeps.actions ▸ hactions)
      (keeps.attempt ▸ hattempt) (hat keeps.stepIndex)
    refine .acting phase (resumePhase.trans hnone) (keeps.attempt ▸ attempt) (by omega) ?_
    rw [busy_congr recovery,keeps.actions]
    exact paid
  | recovered kind sent was hbusy phase keeps resumePhase recovery c hc =>
    obtain ⟨hnone,attempt,_,paid⟩ := hpaid.of_acting was
    rw [busy_of_not_free hbusy] at paid
    refine .live n (.same (by simp [kind]) (still_single (by simp [hc]))) ?_
      (keeps.actions ▸ hactions)
      (keeps.attempt ▸ hattempt) (hat keeps.stepIndex)
    refine .before (.inl phase) (resumePhase.trans hnone) (keeps.attempt ▸ attempt) ?_
    rw [busy_of_free recovery,keeps.actions]
    omega
  | delivered kind sent was free phase keeps resumePhase recovery c hc =>
    obtain ⟨hnone,attempt,_,paid⟩ := hpaid.of_acting was
    rw [busy_of_free free] at paid
    refine .live n (.same (by simp [kind]) (still_single (by simp [hc]))) ?_
      (keeps.actions ▸ hactions)
      (keeps.attempt ▸ hattempt) (hat keeps.stepIndex)
    refine .after phase (resumePhase.trans hnone) (keeps.attempt ▸ attempt) recovery ?_
    rw [keeps.actions]
    omega
  | refused kind notSent was phase resumePhase recovery charge charged keeps =>
    obtain ⟨_,attempt,_,paid⟩ := hpaid.of_acting was
    have hacts : t.actions = s.actions+charge := keeps.actions
    have hnext : t.actionAttempt = s.actionAttempt+1 := keeps.attempt
    have hfirst := busy_nonneg s
    refine .live n (.same (by simp [kind]) (by simp [Still])) ?_ (by omega) (by omega)
      (hat keeps.stepIndex)
    rcases charged with ⟨hcharge,_⟩ | ⟨hcharge,hlast⟩
    · refine .pausedBefore phase (by simp [resumePhase]) (by omega) ?_
      rw [busy_of_free recovery]
      omega
    · exact .spent phase (by simp [resumePhase]) (by omega) (by omega)
  | retried kind notSent was phase resumePhase recovery budget attempts keeps c hc =>
    obtain ⟨hnone,attempt,_,paid⟩ := hpaid.of_acting was
    have hacts : t.actions = s.actions+1 := keeps.actions
    have hnext : t.actionAttempt = s.actionAttempt+1 := keeps.attempt
    have hfirst := busy_nonneg s
    refine .live n (.same (by simp [kind]) (still_single (by simp [hc]))) ?_ (by omega) (by omega)
      (hat keeps.stepIndex)
    refine .before (.inl phase) (resumePhase.trans hnone) (by omega) ?_
    rw [busy_of_free recovery]
    omega
  | withdraw kind was change phase keeps resumePhase recovery c hc =>
    obtain ⟨hnone,attempt,out,paid⟩ := hpaid.of_acting was
    refine .live (n-1) (.withdraw kind phase out (still_single (by simp [hc]))) ?_
      (keeps.actions ▸ hactions)
      (keeps.attempt ▸ hattempt) (hat keeps.stepIndex)
    refine .before (.inl phase) (resumePhase.trans hnone) (keeps.attempt ▸ attempt) ?_
    rw [busy_congr recovery,keeps.actions]
    omega

lemma Move.digest (h : Move p s step event inputs t cmds) :
    t.capabilitySHA256 = s.capabilitySHA256 := by
  cases h with
  | halt _ digest => exact digest
  | start | startConclude => rfl
  | conclude _ _ _ _ _ _ _ _ _ keeps => exact keeps.digest
  | complete _ _ _ _ _ _ _ keeps => exact keeps.digest
  | pause _ keeps => exact keeps.digest
  | resume _ _ _ keeps => exact keeps.digest
  | again _ _ keeps => exact keeps.digest
  | recover _ _ _ _ _ _ _ _ _ keeps => exact keeps.digest
  | enter _ _ _ _ _ _ _ _ _ _ keeps => exact keeps.digest
  | ask _ _ _ _ _ keeps => exact keeps.digest
  | act _ _ _ _ _ keeps => exact keeps.digest
  | approve _ _ _ _ keeps => exact keeps.digest
  | recovered _ _ _ _ _ keeps => exact keeps.digest
  | delivered _ _ _ _ _ keeps => exact keeps.digest
  | refused _ _ _ _ _ _ _ _ keeps => exact keeps.digest
  | retried _ _ _ _ _ _ _ _ keeps => exact keeps.digest
  | withdraw _ _ _ _ keeps => exact keeps.digest

/-- A recovery is counted before it acts, and nothing else acts in its name. -/
inductive Counted (p : Program) (s t : State) (cmds : List Command) : Prop
  | same (counts : t.recoveryCounts = s.recoveryCounts)
      (own : ∀ c ∈ cmds, c.kind = .act → c.recoveryID = "")
  | recovery (r : Recovery) (mem : r ∈ p.spec.recoveries)
      (room : (s.recoveryCounts.get r.id).getD 0 < r.max)
      (counts : t.recoveryCounts = s.recoveryCounts.set r.id ((s.recoveryCounts.get r.id).getD 0+1))
      (named : cmds.length ≤ 1 ∧ ∀ c ∈ cmds, c.recoveryID = r.id)

lemma own_of_still (h : Still cmds) : ∀ c ∈ cmds, c.kind = .act → c.recoveryID = "" :=
  fun c hc hact => (h c hc hact).elim

lemma own_single {c : Command} (h : c.recoveryID = "") :
    ∀ d ∈ [c], d.kind = .act → d.recoveryID = "" := by
  intro d hd _
  rw [List.mem_singleton.mp hd,h]

lemma Move.counted (h : Move p s step event inputs t cmds) : Counted p s t cmds := by
  cases h with
  | halt _ _ _ _ counts =>
    rcases counts with hsame | ⟨r,mem,room,hset⟩
    · exact .same hsame (by simp)
    · exact .recovery r mem room hset (by simp)
  | recover _ _ _ r mem _ room _ _ keeps _ _ c _ _ hr =>
    refine .recovery r mem room keeps.counts ⟨by simp,?_⟩
    intro d hd
    rw [List.mem_singleton.mp hd,hr]
  | act _ _ _ _ _ keeps _ _ _ _ c _ _ hr => exact .same keeps.counts (own_single hr)
  | approve _ _ _ _ keeps _ _ _ c _ _ hr => exact .same keeps.counts (own_single hr)
  | start _ _ _ _ c hc => exact .same rfl (own_of_still (still_single (by simp [hc])))
  | startConclude => exact .same rfl (by simp)
  | conclude _ _ _ _ _ _ _ _ _ keeps => exact .same keeps.counts (by simp)
  | complete _ _ _ _ _ _ _ keeps => exact .same keeps.counts (by simp)
  | pause _ keeps => exact .same keeps.counts (by simp)
  | refused _ _ _ _ _ _ _ _ keeps => exact .same keeps.counts (by simp)
  | resume _ _ _ keeps _ _ _ c hc =>
    refine .same keeps.counts (own_of_still (still_single ?_))
    rw [hc]
    split_ifs <;> simp
  | again _ _ keeps _ _ c hc =>
    refine .same keeps.counts (own_of_still (still_single ?_))
    rw [hc]
    split_ifs <;> simp
  | enter _ _ _ _ _ _ _ _ _ _ keeps _ _ c hc =>
    exact .same keeps.counts (own_of_still (still_single (by simp [hc])))
  | ask _ _ _ _ _ keeps _ _ _ _ c hc =>
    exact .same keeps.counts (own_of_still (still_single (by simp [hc])))
  | recovered _ _ _ _ _ keeps _ _ c hc =>
    exact .same keeps.counts (own_of_still (still_single (by simp [hc])))
  | delivered _ _ _ _ _ keeps _ _ c hc =>
    exact .same keeps.counts (own_of_still (still_single (by simp [hc])))
  | retried _ _ _ _ _ _ _ _ keeps c hc =>
    exact .same keeps.counts (own_of_still (still_single (by simp [hc])))
  | withdraw _ _ _ _ keeps _ _ c hc =>
    exact .same keeps.counts (own_of_still (still_single (by simp [hc])))

end

section
variable {c : Artifact} {p : Program} {start s : State} {hist : List Accepted}

/-- Every recovery has acted at most as often as it was counted, and was counted at most its
maximum. -/
def Rationed (p : Program) (hist : List Accepted) (s : State) : Prop :=
  ∀ r ∈ p.spec.recoveries, ((applications hist r.id).length : ℤ) ≤
  (s.recoveryCounts.get r.id).getD 0 ∧
    (s.recoveryCounts.get r.id).getD 0 ≤ r.max

lemma Rationed.counted {t : State} {event : Event} {cmds : List Command} (hc : Compiled c p)
    (h : Rationed p hist s) (hcounted : Counted p (s.clocked event) t cmds) :
    Rationed p (hist ++ [⟨s,event,t,cmds⟩]) t := by
  intro r hr
  obtain ⟨happlied,hmax⟩ := h r hr
  rw [applications_snoc]
  dsimp only
  cases hcounted with
  | same counts own =>
    have hnone : cmds.filter (fun c => c.kind = .act ∧ c.recoveryID = r.id) = [] := by
      apply List.filter_eq_nil_iff.mpr
      intro d hd hboth
      simp only [Bool.decide_and,Bool.and_eq_true,decide_eq_true_eq] at hboth
      exact (hc.recoveries.2 r hr).1 (hboth.2.symm.trans (own d hd hboth.1))
    rw [hnone,List.append_nil,counts]
    exact ⟨happlied,hmax⟩
  | recovery q mem room counts named =>
    have room : (s.recoveryCounts.get q.id).getD 0 < q.max := room
    have counts : t.recoveryCounts = s.recoveryCounts.set q.id
      ((s.recoveryCounts.get q.id).getD 0+1) := counts
    by_cases hid : r.id = q.id
    · obtain rfl : r = q := List.inj_on_of_nodup_map hc.recoveries.1 hr mem hid
      have hshort : (cmds.filter (fun c => c.kind = .act ∧ c.recoveryID = r.id)).length ≤ 1 :=
        (List.length_filter_le _ _).trans named.1
      rw [counts,Table.get_set_self,Option.getD_some,List.length_append]
      omega
    · have hnone : cmds.filter (fun c => c.kind = .act ∧ c.recoveryID = r.id) = [] := by
        apply List.filter_eq_nil_iff.mpr
        intro d hd hboth
        simp only [Bool.decide_and,Bool.and_eq_true,decide_eq_true_eq] at hboth
        exact hid (hboth.2.symm.trans (named.2 d hd))
      rw [hnone,List.append_nil,counts,Table.get_set_of_ne _ hid]
      exact ⟨happlied,hmax⟩

/-- A run keeps to its recoveries from the first event on. -/
theorem Run.rationed (hc : Compiled c p) (hstart : start.recoveryCounts = Table.empty)
    (run : Run p start hist s) :
    Rationed p hist s := by
  induction run with
  | nil =>
    intro r hr
    rw [hstart]
    have := (hc.recoveries.2 r hr).2
    simp only [applications,List.flatMap_nil,List.filter_nil,List.length_nil,Table.get_empty,
      Option.getD_none]
    omega
  | snoc run h ih =>
    cases reduce_stepped h with
    | fence kind after none =>
      subst after none
      exact ih.counted hc (.same rfl (by simp))
    | live kind step nonterminal here move late => exact ih.counted hc move.counted

theorem Run.digest (run : Run p start hist s) : s.capabilitySHA256 = start.capabilitySHA256 := by
  induction run with
  | nil => rfl
  | snoc run h ih =>
    cases reduce_stepped h with
    | fence kind after none =>
      subst after
      exact ih
    | live kind step nonterminal here move late => exact move.digest.trans ih

/-- A run after its start: live with all its acts paid for, or ended under its ceilings. -/
inductive Accounted (p : Program) (hist : List Accepted) (s : State) : Prop
  | ended (terminal : s.terminal = true)
      (acts : ((standing hist).length : ℤ) ≤ p.spec.limits.maxActions)
      (actions : s.phase ≠ .failed → s.actions ≤ p.spec.limits.maxActions)
      (attempt : 0 ≤ s.actionAttempt ∧ s.actionAttempt ≤ p.spec.limits.observationAttempts)
  | live (paid : Paid p (standing hist).length s) (actions : s.actions ≤ p.spec.limits.maxActions)
      (attempt : 0 ≤ s.actionAttempt) (here : ∃ step, p.spec.steps[s.stepIndex]? = some step)

lemma standing_of_still {a : Accepted} (kind : a.event.kind ≠ .approvalChanged)
    (h : Still a.commands) :
    standing (hist ++ [a]) = standing hist := by
  rw [standing_snoc,if_neg (fun h => kind h.1),filter_act_of_still h,List.append_nil]

/-- The sequence number and the clock are no part of what was paid. -/
lemma Paid.of_fields {n : ℤ} {t : State} (h : Paid p n s) (phase : t.phase = s.phase)
    (resume : t.resumePhase = s.resumePhase) (attempt : t.actionAttempt = s.actionAttempt)
    (recovery : t.activeRecovery = s.activeRecovery) (actions : t.actions = s.actions) :
    Paid p n t := by
  have hbusy := busy_congr recovery
  cases h with
  | before h1 h2 h3 h4 =>
    exact .before (by rw [phase]; exact h1) (resume.trans h2) (attempt ▸ h3)
      (by rw [hbusy,actions]; exact h4)
  | acting h1 h2 h3 h4 h5 =>
    exact .acting (phase.trans h1) (resume.trans h2) (attempt ▸ h3) h4
      (by rw [hbusy,actions]; exact h5)
  | after h1 h2 h3 h4 h5 =>
    exact .after (phase.trans h1) (resume.trans h2) (attempt ▸ h3) (recovery.trans h4)
      (actions ▸ h5)
  | pausedBefore h1 h2 h3 h4 =>
    exact .pausedBefore (phase.trans h1) (resume ▸ h2) (attempt ▸ h3)
      (by rw [hbusy,actions]; exact h4)
  | pausedAfter h1 h2 h3 h4 h5 =>
    exact .pausedAfter (phase.trans h1) (resume.trans h2) (attempt ▸ h3) (recovery.trans h4)
      (actions ▸ h5)
  | spent h1 h2 h3 h4 =>
    exact .spent (phase.trans h1) (resume ▸ h2) (attempt.trans h3) (actions ▸ h4)

/-- The start charges the first step. -/
lemma Stepped.accounted_first {t : State} {event : Event} {inputs : Table String Value}
    {cmds : List Command}
    {runID sessionID : String} {epoch : UInt64} (hc : Compiled c p)
    (hnew : newState p runID sessionID epoch = .ok start) (kind : event.kind = .start)
    (h : Stepped p start event inputs t cmds) : Accounted p [⟨start,event,t,cmds⟩] t := by
  unfold newState at hnew
  split_ifs at hnew
  cases hnew
  obtain ⟨hmax,hattempts⟩ := hc.limits
  have hnone : ∀ {cmds : List Command}, Still cmds → ∀ before after,
      ((standing [⟨before,event,after,cmds⟩]).length : ℤ) = 0 := by
    intro cmds hstill before after
    have hnil : standing ([] ++ [⟨before,event,after,cmds⟩]) = standing [] :=
      standing_of_still (by simp [kind]) hstill
    rw [List.nil_append] at hnil
    rw [hnil]
    rfl
  cases h with
  | fence hk =>
    rw [kind] at hk
    cases hk
  | live hk step nonterminal here move late =>
    cases move with
    | halt phase _ actions attempt =>
      refine .ended (terminal_of_ended phase) ?_ (fun hne => ?_) ?_
      · rw [hnone (by simp [Still])]
        omega
      · rw [actions hne]
        change (0 : ℤ) ≤ _
        omega
      · rcases attempt with h | h | ⟨h,_⟩
        · rw [h]
          change (0 : ℤ) ≤ 0 ∧ (0 : ℤ) ≤ _
          omega
        · rw [h]
          omega
        · cases h
    | start _ _ _ _ c' hc' =>
      refine .live (.before (.inl rfl) rfl ?_ ?_) hmax (le_refl 0) ⟨step,here⟩
      · change (0 : ℤ) < _
        omega
      · rw [hnone (still_single (by simp [hc']))]
        exact le_refl 1
    | startConclude =>
      refine .ended (terminal_finishConclude _ _ _) ?_ (fun _ => hmax) ⟨le_refl 0,?_⟩
      · rw [hnone (by simp [Still])]
        omega
      · change (0 : ℤ) ≤ _
        omega
    | pause _ _ _ _ _ hk => exact (hk.1 kind).elim
    | again _ _ _ _ _ _ _ _ hk => rcases hk with h | h <;> simp [kind] at h
    | resume hk | recover hk | enter hk | conclude hk | complete hk | ask hk | act hk | approve hk
        | recovered hk
    | delivered hk | refused hk | retried hk | withdraw hk => simp [kind] at hk

/-- Every later event keeps a run within what it paid. -/
lemma Accounted.after {t : State} {event : Event} {inputs : Table String Value}
    {cmds : List Command}
    (hc : Compiled c p) (h : Accounted p hist s) (hstep : Stepped p s event inputs t cmds) :
    Accounted p (hist ++ [⟨s,event,t,cmds⟩]) t := by
  cases hstep with
  | fence kind after none =>
    subst after none
    have hsame : standing (hist ++
      [⟨s,event,{ s.clocked event with epoch := event.nextEpoch },[]⟩]) = standing hist :=
      standing_of_still (by simp [kind]) (by simp [Still])
    cases h with
    | ended terminal acts actions attempt =>
      exact .ended terminal (by rw [hsame]; exact acts) actions attempt
    | live paid actions attempt here =>
      refine .live ?_ actions attempt here
      rw [hsame]
      exact paid.of_fields rfl rfl rfl rfl rfl
  | live kind step nonterminal here move late =>
    cases h with
    | ended terminal =>
      rw [nonterminal] at terminal
      cases terminal
    | live paid actions attempt _ =>
      have hpaid : Paid p (standing hist).length (s.clocked event) :=
        paid.of_fields rfl rfl rfl rfl rfl
      cases move.settles here hc.limits.2 (by omega) hpaid actions attempt with
      | ended terminal none hactions hattempt =>
        subst none
        refine .ended terminal ?_ hactions hattempt
        rw [standing_snoc,List.filter_nil,List.append_nil]
        have hle := paid.le_actions
        have hdrop : (standing hist).dropLast.length ≤ (standing hist).length := by simp
        split_ifs <;> omega
      | live m tallied hpaid hactions hattempt hhere =>
        refine .live ?_ hactions hattempt hhere
        rw [tallied.standing]
        exact hpaid

/-- A cancellation that is addressed to a live run is taken. -/
lemma reduce_cancel (hdigest : s.capabilitySHA256 = p.digest)
    (hattempt : 0 ≤ s.actionAttempt ∧ s.actionAttempt ≤ p.spec.limits.observationAttempts)
    (hinside : ∃ step, p.spec.steps[s.stepIndex]? = some step) (hlive : s.terminal = false)
    {event : Event}
    (inputs : Table String Value) (hkind : event.kind = .cancel) (h : event.Follows s) :
    ∃ t cmds, reduce p s event inputs = .ok (t,cmds) := by
  obtain ⟨step,hstep⟩ := hinside
  have hclock : ¬ (event.sequence = 0 ∨ event.sequence ≠ s.sequence+1 ∨
    event.elapsedMillis < s.elapsedMillis) := by
    rintro (hzero | hnext | hback)
    · exact h.sequence.1 hzero
    · exact hnext h.sequence.2
    · exact not_lt.mpr h.clock hback
  unfold reduce
  rw [if_neg (not_not.mpr hdigest),if_neg (by omega),if_neg (by simp [h.run,h.session,h.epoch]),
    if_neg hclock,if_neg (by simp [hkind]),if_neg (by simp [hlive]),hstep]
  dsimp only
  split_ifs
  · exact ⟨_,_,rfl⟩
  · unfold reduceLive
    rw [hkind]
    exact ⟨_,_,rfl⟩

end

/-- The budgets of a compiled program are ceilings of every run that begins with a start. -/
theorem withinBudget_of_begins {validateAnchor : VisualAnchor → Except String Unit}
    {digest : String}
    {c : Artifact} {p : Program} (hcompile : compile validateAnchor digest c = .ok p)
    {runID sessionID : String} {epoch : UInt64} {start s : State} {hist : List Accepted}
    (hnew : newState p runID sessionID epoch = .ok start) (run : Run p start hist s)
    (hbegins : Begins hist) :
    WithinBudget p hist s := by
  obtain ⟨hc,_⟩ := compile_compiled hcompile
  have haccounted : Accounted p hist s :=
    run.from_start (fun t event inputs cmds kind h => h.accounted_first hc hnew kind)
      (fun hist s t event inputs cmds h ih => ih.after hc h) hbegins
  have hstart : start.recoveryCounts = Table.empty ∧ start.capabilitySHA256 = p.digest := by
    unfold newState at hnew
    split_ifs at hnew
    cases hnew
    exact ⟨rfl,rfl⟩
  have hrationed := run.rationed hc hstart.1
  have hrecoveries : ∀ r ∈ p.spec.recoveries, (s.recoveryCounts.get r.id).getD 0 ≤ r.max ∧
      ((applications hist r.id).length : ℤ) ≤ r.max :=
    fun r hr => ⟨(hrationed r hr).2,(hrationed r hr).1.trans (hrationed r hr).2⟩
  have hdigest := run.digest.trans hstart.2
  cases haccounted with
  | ended terminal acts actions attempt =>
    have hnot : s.terminal = false → False := by simp [terminal]
    exact ⟨actions,acts,hrecoveries,attempt,fun h => (hnot h).elim,fun h => (hnot h).elim⟩
  | live paid actions attempt here =>
    have hrange := And.intro attempt paid.attempt_le
    exact ⟨fun _ => actions,paid.le_actions.trans actions,hrecoveries,hrange,fun _ => here,
      fun hlive event inputs hkind h => reduce_cancel hdigest hrange here hlive inputs hkind h⟩

/-- A run that starts, acts on a press and is told that it was sent. -/
theorem withinBudget_of_begins_sentEvents : ∃ p start hist s,
    compile (fun _ => .ok ()) "digest" (simpleArtifact [pressStep .read,checkStep] []) = .ok p ∧
    newState p "r" "s" 1 = .ok start ∧ Run p start hist s ∧ (standing hist).length = 1 ∧
    Begins hist ∧
    WithinBudget p hist s := by
  have heval : (replayed (simpleArtifact [pressStep .read,checkStep] []) sentEvents).map (fun r =>
      ((standing r.2.2.1).length,r.2.2.1.head?.map (fun a => a.event.kind))) = some (1,
        some .start) := by
    decide
  obtain ⟨⟨p,start,hist,s⟩,hr,hboth⟩ := Option.map_eq_some_iff.mp heval
  obtain ⟨hacts,hfirst⟩ := Prod.mk.inj hboth
  obtain ⟨hp,hnew,run⟩ := replayed_run hr
  obtain ⟨a,ha,hkind⟩ := Option.map_eq_some_iff.mp hfirst
  obtain ⟨rest,hrest⟩ := List.head?_eq_some_iff.mp ha
  have hbegins : Begins hist := ⟨a,rest,hrest,hkind⟩
  exact ⟨p,start,hist,s,hp,hnew,run,hacts,hbegins,withinBudget_of_begins hp hnew run hbegins⟩

end Manvi.Workflow
