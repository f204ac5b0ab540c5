import Manvi.Encoding.Json
import Manvi.Workflow.Compile
import Manvi.Workflow.Move

/-! A step that changes something acts only on the approval of what was last observed. -/
namespace Manvi.Workflow
open Manvi.Encoding

/-- Whether an answer holds no command to act. -/
def Still (cmds : List Command) : Prop := ∀ c ∈ cmds, c.kind ≠ .act

/-- What an observation leads to that asks for the approval of what was observed. -/
structure Asks (p : Program) (s : State) (event : Event) (t : State)
    (cmds : List Command) : Prop where
  observed : event.kind = .observed
  complete : event.observation.complete = true
  single : event.observation.matchCount = 1
  actionable : event.observation.actionable = true
  actionID : event.actionID = s.actionID p
  observation : t.observation = event.observation
  sameStep : t.stepIndex = s.stepIndex
  sameAction : t.actionID p = s.actionID p
  still : Still cmds

/-- What the reducer does with an event it takes: it fences, or does nothing that touches approvals,
or asks for one, or acts on the one it asked for. -/
inductive Taken (p : Program) (s : State) (event : Event) (t : State) (cmds : List Command) : Prop
  | fence (kind : event.kind = .fence)
      (after : t = { s.clocked event with epoch := event.nextEpoch })
      (none : cmds = [])
  | quiet (phase : t.phase ≠ .awaitingApproval)
      (acts : ∀ c ∈ cmds, c.kind = .act → c.step.effect ≠ .change)
  | asks (h : Asks p s event t cmds)
  | approves (kind : event.kind = .approve) (was : s.phase = .awaitingApproval)
      (names : event.actionID = s.actionID p ∧ event.observation.id = s.observation.id)
      (phase : t.phase = .acting)
      (c : Command) (only : cmds = [c]) (hid : c.actionID = s.actionID p)
      (here : p.spec.steps[s.stepIndex]? = some c.step)

section
variable {p : Program} {s t : State} {step : Step} {event : Event} {inputs : Table String Value}
  {cmds : List Command}

lemma Taken.none_sent (h : t.phase ≠ .awaitingApproval) : Taken p s event t [] := .quiet h (by simp)

lemma Taken.sent {c : Command} (h : t.phase ≠ .awaitingApproval)
    (hc : c.kind = .act → c.step.effect ≠ .change) :
    Taken p s event t [c] := by
  refine .quiet h ?_
  intro d hd
  obtain rfl := List.mem_singleton.mp hd
  exact hc

lemma Taken.observes {c : Command} (h : t.phase ≠ .awaitingApproval) (hc : c.kind ≠ .act) :
    Taken p s event t [c] :=
  .sent h (fun hact => (hc hact).elim)

lemma Move.taken (h : Move p s step event inputs t cmds)
    (here : p.spec.steps[s.stepIndex]? = some step) :
    Taken p s event t cmds := by
  cases h with
  | halt phase =>
    refine .none_sent ?_
    rcases phase with h | h | h <;> simp [h]
  | pause phase => exact .none_sent (by simp [phase])
  | start _ _ _ _ c hc => exact .observes (by simp) (by simp [hc])
  | startConclude | conclude =>
    refine .none_sent ?_
    unfold finishConclude
    dsimp only
    split_ifs <;> simp
  | resume _ _ _ _ phase _ _ c hc =>
    refine .observes ?_ ?_
    · rw [phase]
      split_ifs <;> simp
    · rw [hc]
      split_ifs <;> simp
  | again was phase _ _ _ c hc =>
    refine .observes ?_ ?_
    · rw [phase]
      rcases was with h | h <;> simp [h]
    · rw [hc]
      split_ifs <;> simp
  | recover _ _ _ _ _ _ _ _ phase _ _ _ c _ _ _ hstep =>
    exact .sent (by simp [phase]) (by simp [hstep.2.2.2])
  | enter _ _ _ _ _ _ _ _ _ phase _ _ _ c hc => exact .observes (by simp [phase]) (by simp [hc])
  | complete _ _ _ _ _ _ phase => exact .none_sent (by simp [phase])
  | ask kind _ _ _ _ keeps _ _ seen _ c hc _ resolved actionable names =>
    refine .asks ⟨kind,resolved.1,resolved.2.1,actionable,names,seen,keeps.stepIndex,
      keeps.actionID,?_⟩
    intro d hd
    obtain rfl := List.mem_singleton.mp hd
    simp [hc]
  | act _ _ _ read phase _ _ _ _ _ c _ _ _ hstep =>
    exact .sent (by simp [phase]) (fun _ => hstep ▸ read)
  | approve kind was names phase _ _ _ _ c _ hid _ hstep =>
    exact .approves kind was names phase c rfl hid (hstep ▸ here)
  | recovered _ _ _ _ phase _ _ _ c hc | delivered _ _ _ _ phase _ _ _ c hc =>
    exact .observes (by simp [phase]) (by simp [hc])
  | refused _ _ _ phase => exact .none_sent (by simp [phase])
  | retried _ _ _ phase _ _ _ _ _ c hc => exact .observes (by simp [phase]) (by simp [hc])
  | withdraw _ _ _ phase _ _ _ c hc => exact .observes (by simp [phase]) (by simp [hc])

theorem reduce_taken (h : reduce p s event inputs = .ok (t,cmds)) : Taken p s event t cmds := by
  have hclock : (s.clocked event).actionID p = s.actionID p := actionID_congr rfl rfl rfl
  cases reduce_stepped h with
  | fence kind after none => exact .fence kind after none
  | live _ step _ here move =>
    cases move.taken here with
    | fence kind => exact absurd kind ‹_›
    | quiet phase acts => exact .quiet phase acts
    | asks ha =>
      exact .asks ⟨ha.observed,ha.complete,ha.single,ha.actionable,hclock ▸ ha.actionID,
        ha.observation,ha.sameStep,
        hclock ▸ ha.sameAction,ha.still⟩
    | approves kind was names phase c only hid here =>
      exact .approves kind was (hclock ▸ names) phase c only (hclock ▸ hid) here

end

/-- The latest observation of a history, with nothing but fences after it: it was complete, resolved
to one element that could be acted on, and was taken for the present action. -/
structure Seen (p : Program) (hist : List Accepted) (s : State) (o : Accepted)
    (mid : List Accepted) : Prop where
  split : ∃ pre, hist = pre ++ o :: mid
  observed : o.event.kind = .observed
  complete : o.event.observation.complete = true
  single : o.event.observation.matchCount = 1
  actionable : o.event.observation.actionable = true
  observation : s.observation = o.event.observation
  sameStep : o.before.stepIndex = s.stepIndex
  sameAction : o.event.actionID = s.actionID p
  still : Still o.commands
  fences : ∀ b ∈ mid, b.event.kind = .fence ∧ b.commands = []

/-- A run that waits for an approval has seen what it asks for. -/
theorem Run.seen {p : Program} {start s : State} {hist : List Accepted}
    (hstart : start.phase ≠ .awaitingApproval)
    (run : Run p start hist s) (hs : s.phase = .awaitingApproval) :
    ∃ o mid, Seen p hist s o mid := by
  induction run with
  | nil => exact (hstart hs).elim
  | @snoc hist s s' event inputs cmds run h ih =>
    cases reduce_taken h with
    | fence hk hafter hcmds =>
      rw [hafter] at hs
      obtain ⟨o,mid,hseen⟩ := ih hs
      obtain ⟨pre,hsplit⟩ := hseen.split
      refine ⟨o,mid ++ [⟨s,event,s',cmds⟩],⟨pre,?_⟩,hseen.observed,hseen.complete,hseen.single,
        hseen.actionable,
        ?_,?_,?_,hseen.still,?_⟩
      · rw [hsplit,List.append_assoc,List.cons_append]
      · rw [hafter]
        exact hseen.observation
      · rw [hafter]
        exact hseen.sameStep
      · rw [hseen.sameAction,hafter]
        exact (actionID_congr rfl rfl rfl).symm
      · intro b hb
        rcases List.mem_append.mp hb with hb | hb
        · exact hseen.fences b hb
        · obtain rfl := List.mem_singleton.mp hb
          exact ⟨hk,hcmds⟩
    | quiet phase => exact (phase hs).elim
    | asks ha =>
      refine ⟨_,[],⟨hist,rfl⟩,ha.observed,ha.complete,ha.single,ha.actionable,ha.observation,
        ha.sameStep.symm,?_,ha.still,by simp⟩
      rw [ha.sameAction]
      exact ha.actionID
    | approves _ _ _ phase =>
      rw [phase] at hs
      cases hs

/-- What stands behind a command to act on a step that changes something. -/
structure Approved (p : Program) (pre : List Accepted) (a : Accepted) (c : Command) : Prop where
  approve : a.event.kind = .approve
  names : a.event.actionID = a.before.actionID p ∧ c.actionID = a.event.actionID ∧
    p.spec.steps[a.before.stepIndex]? = some c.step
  latest : ∃ earlier o mid, pre = earlier ++ o :: mid ∧ o.event.kind = .observed ∧
    o.event.observation.id = a.event.observation.id ∧ o.event.observation.complete = true ∧
    o.event.observation.matchCount = 1 ∧ o.event.observation.actionable = true ∧
    o.before.stepIndex = a.before.stepIndex ∧ o.event.actionID = a.event.actionID ∧
    Still o.commands ∧
    ∀ b ∈ mid, b.event.kind ≠ .observed ∧ b.event.kind ≠ .pause ∧ b.event.kind ≠ .approvalChanged ∧
      Still b.commands

/-- Every command to act on a step that changes something comes from the approval of the step's
present action and of the latest observation, which was complete, resolved to one element, could be
acted on and was taken for the same step; nothing between them acted, paused, withdrew the approval
or observed again. -/
theorem change_only_on_approval {p : Program} {runID sessionID : String} {epoch : UInt64}
    {start s : State}
    {hist : List Accepted} (hnew : newState p runID sessionID epoch = .ok start)
    (run : Run p start hist s)
    {pre post : List Accepted} {a : Accepted} (hsplit : hist = pre ++ a :: post) {c : Command}
    (hc : c ∈ a.commands) (hact : c.kind = .act) (hchange : c.step.effect = .change) :
    Approved p pre a c := by
  have hstart : start.phase ≠ .awaitingApproval := by
    rw [(newState_ready hnew).1]
    simp
  induction run generalizing post with
  | nil =>
    have := congrArg List.length hsplit
    simp at this
  | @snoc hist s s' event inputs cmds run h ih =>
    rcases List.eq_nil_or_concat post with rfl | ⟨post',b,rfl⟩
    · have hlast : hist = pre ∧ (⟨s,event,s',cmds⟩ : Accepted) = a := by
        have := List.append_inj' hsplit rfl
        simpa using this
      obtain ⟨rfl,rfl⟩ := hlast
      cases reduce_taken h with
      | fence _ _ hnone =>
        rw [hnone] at hc
        cases hc
      | quiet _ acts => exact (acts c hc hact hchange).elim
      | asks ha => exact (ha.still c hc hact).elim
      | approves hk hphase hnames _ d honly hid hstep =>
        obtain ⟨o,mid,hseen⟩ := run.seen hstart hphase
        obtain ⟨earlier,hpre⟩ := hseen.split
        rw [honly] at hc
        obtain rfl := List.mem_singleton.mp hc
        refine ⟨hk,⟨hnames.1,hid.trans hnames.1.symm,hstep⟩,earlier,o,mid,hpre,hseen.observed,?_,
          hseen.complete,
          hseen.single,hseen.actionable,hseen.sameStep,?_,hseen.still,?_⟩
        · exact (congrArg Observation.id hseen.observation).symm.trans hnames.2.symm
        · exact hseen.sameAction.trans hnames.1.symm
        · intro b hb
          obtain ⟨hkind,hnone⟩ := hseen.fences b hb
          rw [hkind,hnone]
          refine ⟨by simp,by simp,by simp,?_⟩
          intro d hd
          cases hd
    · have hinit : hist = pre ++ a :: post' := by
        have hends : hist ++ [⟨s,event,s',cmds⟩] = (pre ++ a :: post') ++ [b] := by
          simpa using hsplit
        exact (List.append_inj' hends rfl).1
      exact ih hinit

/-- The record of a list of events, when the reducer takes them all. -/
def recorded (p : Program) (inputs : Table String Value) :
    State → List Event → Option (List Accepted × State)
  | s,[] => some ([],s)
  | s,event :: events => match reduce p s event inputs with
    | .error _ => none
    | .ok r => (recorded p inputs r.1 events).map (fun t => (⟨s,event,r.1,r.2⟩ :: t.1,t.2))

lemma Run.recorded {p : Program} {start s s' : State} {hist tail : List Accepted}
    {events : List Event}
    {inputs : Table String Value} (run : Run p start hist s)
    (h : recorded p inputs s events = some (tail,s')) : Run p start (hist ++ tail) s' := by
  induction events generalizing hist s tail with
  | nil =>
    cases h
    rw [List.append_nil]
    exact run
  | cons event events ih =>
    rw [Workflow.recorded] at h
    cases hr : reduce p s event inputs with
    | error e =>
      rw [hr] at h
      cases h
    | ok r =>
      rw [hr] at h
      obtain ⟨t,ht,hcons⟩ := Option.map_eq_some_iff.mp h
      cases hcons
      have hstep := ih (run.snoc hr) ht
      rwa [List.append_assoc] at hstep

/-- The record of events on a compiled capability, when all are taken. -/
def replayed (c : Artifact) (events : List Event) :
    Option (Program × State × List Accepted × State) := do
  let p ← (compile (fun _ => .ok ()) "digest" c).toOption
  let start ← (newState p "r" "s" 1).toOption
  let r ← recorded p Table.empty start events
  return (p,start,r.1,r.2)

lemma replayed_run {c : Artifact} {events : List Event} {p : Program} {start s : State}
    {hist : List Accepted}
    (h : replayed c events = some (p,start,hist,s)) : compile (fun _ => .ok ()) "digest" c = .ok p ∧
      newState p "r" "s" 1 = .ok start ∧ Run p start hist s := by
  obtain ⟨p',hp,h⟩ := Option.bind_eq_some_iff.mp h
  obtain ⟨start',hstart,h⟩ := Option.bind_eq_some_iff.mp h
  obtain ⟨r,hr,h⟩ := Option.bind_eq_some_iff.mp h
  cases h
  exact ⟨eq_ok_of_toOption hp,eq_ok_of_toOption hstart,Run.nil.recorded hr⟩

/-- A capability of the given steps and recoveries over two semantic targets. -/
def simpleArtifact (steps : List Step) (recoveries : List Recovery) : Artifact :=
  ⟨⟨[],(Table.empty.set "dialog" (.mk none "button" "Close" "" "" [] "" "")).set "ok"
    (.mk none "button" "OK" "" "" [] "" ""),[],
    recoveries,steps,defaultLimits⟩,1,"send","r1","app",[]⟩

/-- A step that presses, and one that checks that the target exists. -/
def pressStep (effect : Effect) : Step :=
  ⟨"send",.press,"ok",effect,Ref.zero,Predicate.zero,"",.absent,"","","",""⟩

def checkStep : Step :=
  ⟨"done",.assert,"ok",.read,Ref.zero,⟨.exists,Ref.zero⟩,"",.absent,"","","",""⟩

/-- A recovery that closes a dialog. -/
def closeDialog : Recovery := ⟨"close",⟨"dialog",⟨.exists,Ref.zero⟩⟩,⟨.press,"dialog"⟩,1⟩

/-- The events of a run that starts, observes and is approved. -/
def pressEvents : List Event :=
  [⟨1,"r","s",1,0,10,.start,"",.zero,.none,"",""⟩,
   ⟨2,"r","s",1,0,20,.observed,"r:send",⟨none,"o1","t1",1,true,true,Value.zero,"",0,""⟩,.none,
     "",""⟩,
   ⟨3,"r","s",1,0,30,.approve,"r:send",{ Observation.zero with id := "o1" },.none,"",""⟩]

theorem change_only_on_approval_pressEvents : ∃ p start hist s pre a c,
    compile (fun _ => .ok ()) "digest" (simpleArtifact [pressStep .change,checkStep] []) = .ok p ∧
      newState p "r" "s" 1 = .ok start ∧ Run p start hist s ∧ hist = pre ++ a :: [] ∧
      c ∈ a.commands ∧ c.kind = .act ∧ c.step.effect = .change ∧ Approved p pre a c := by
  have hacts : (replayed (simpleArtifact [pressStep .change,checkStep] []) pressEvents).map
    (fun r =>
      r.2.2.1.getLast?.map (fun a => a.commands.map (fun c => (c.kind,c.step.effect)))) =
      some (some [(.act,.change)]) := by decide
  obtain ⟨⟨p,start,hist,s⟩,hr,hlast⟩ := Option.map_eq_some_iff.mp hacts
  obtain ⟨hp,hnew,run⟩ := replayed_run hr
  obtain ⟨a,ha,hcmds⟩ := Option.map_eq_some_iff.mp hlast
  obtain ⟨pre,hpre⟩ := List.getLast?_eq_some_iff.mp ha
  obtain ⟨c,rest,hc,hkind,-⟩ := List.map_eq_cons_iff.mp hcmds
  obtain ⟨hact,hchange⟩ := Prod.mk.inj hkind
  have hmem : c ∈ a.commands := by
    rw [hc]
    exact List.mem_cons_self
  exact ⟨p,start,hist,s,pre,a,c,hp,hnew,run,hpre,hmem,hact,hchange,
    change_only_on_approval hnew run hpre hmem hact hchange⟩

end Manvi.Workflow
