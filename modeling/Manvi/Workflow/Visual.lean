import Manvi.Workflow.Dispatch

/-! Which acts land on a pixel match, and which of them were approved. -/
namespace Manvi.Workflow
open Manvi.Encoding

/-- The rung of a target that an observation went through is an image. -/
def OnPixels (p : Program) (target : String) (obs : Observation) : Prop :=
  ∃ rung, (p.target target).ladder[obs.strategyIndex.toNat]? = some rung ∧ rung.visual.isSome = true

/-- Some rung of a target is an image. -/
def HasPixels (p : Program) (target : String) : Prop :=
  ∃ rung ∈ (p.target target).ladder, rung.visual.isSome = true

/-- A click of a step that changes something, sent out by an approval of this action and of the
observation that was shown. -/
structure Accepted.Approves (a : Accepted) (c : Command) : Prop where
  click : c.step.kind = .click
  change : c.step.effect = .change
  kind : a.event.kind = .approve
  action : a.event.actionID = c.actionID
  observation : a.event.observation.id = a.before.observation.id

/-- Every act on pixels is an approved click: a step's own where its observation went through an
image, and a recovery's where its target has one. -/
def PixelsApproved (p : Program) (hist : List Accepted) : Prop :=
  ∀ a ∈ hist, ∀ c ∈ a.commands, c.kind = .act →
    (c.recoveryID = "" → OnPixels p c.step.target a.after.observation → a.Approves c) ∧
    (c.recoveryID ≠ "" → HasPixels p c.step.target → a.Approves c)

/-- An event that was reduced with these inputs. -/
def Accepted.Given (p : Program) (a : Accepted) (inputs : Table String Value) : Prop :=
  reduce p a.before a.event inputs = .ok (a.after,a.commands)

/-- An event in time that goes on by pixels without being an approved click: an observation through
a later rung at a step that needs no approval, the approval of such an observation at a step that is
no click, or an observation that is answered by a recovery with an image for its target. -/
inductive Accepted.TakesPixels (p : Program) (a : Accepted) (inputs : Table String Value) : Prop
  | act (step : Step) (here : p.spec.steps[a.before.stepIndex]? = some step) (time : a.InTime p)
      (kind : a.event.kind = .observed) (phase : a.before.phase = .observing)
      (acts : step.kind.acts = true)
      (read : step.effect ≠ .change) (resolved : a.event.observation.Resolved)
      (actionable : a.event.observation.actionable = true)
      (later : 0 < a.event.observation.strategyIndex)
      (pixels : OnPixels p step.target a.event.observation)
  | approve (step : Step) (here : p.spec.steps[a.before.stepIndex]? = some step) (time : a.InTime p)
      (kind : a.event.kind = .approve) (phase : a.before.phase = .awaitingApproval)
      (other : step.kind ≠ .click) (later : 0 < a.before.observation.strategyIndex)
      (pixels : OnPixels p step.target a.before.observation)
  | recover (step : Step) (here : p.spec.steps[a.before.stepIndex]? = some step) (time : a.InTime p)
      (kind : a.event.kind = .observed) (phase : a.before.phase = .observing)
      (free : a.before.activeRecovery = "") (unsure : Unsure step a.event.observation)
      (r : Recovery)
      (picked : p.spec.recoveries.find? (fun r => r.applies a.before a.event.observation inputs) =
        some r)
      (budget : a.before.actions+1 ≤ p.spec.limits.maxActions)
      (pixels : HasPixels p r.action.target)

lemma validateTargets_names {validateAnchor : VisualAnchor → Except String Unit}
    {targets : List (String × Selector)} (h : validateTargets validateAnchor targets = .ok ()) :
    ∀ e ∈ targets, namePattern e.1 = true := by
  induction targets with
  | nil => simp
  | cons e rest ih =>
    obtain ⟨name,selector⟩ := e
    rw [validateTargets] at h
    split_ifs at h with hname
    obtain ⟨⟨⟩,_,hrest⟩ := bind_ok h
    intro e he
    rcases List.mem_cons.mp he with rfl | he
    · simpa using hname
    · exact ih hrest e he

section
variable {validateAnchor : VisualAnchor → Except String Unit} {digest : String} {c : Artifact}
    {p : Program}

/-- No target of a compiled program is without a name. -/
lemma compile_unnamed (h : compile validateAnchor digest c = .ok p) :
    p.target "" = Selector.zero := by
  obtain ⟨htargets,_⟩ := compile_checks h
  obtain ⟨hc,_⟩ := compile_compiled h
  have hnone : c.targets.get "" = none := by
    rw [Table.get_eq_none_iff]
    intro hmem
    obtain ⟨e,he,hname⟩ := List.mem_map.mp hmem
    have hvalid := validateTargets_names htargets e he
    rw [hname] at hvalid
    exact absurd hvalid (by decide)
  unfold Program.target
  rw [hc.spec,hnone]
  rfl

/-- The first rung of a step's target is an image only where the step is a click that changes
something. -/
lemma first_rung_approved (h : compile validateAnchor digest c = .ok p) {i : ℕ} {step : Step}
    (here : p.spec.steps[i]? = some step) {obs : Observation} (hfirst : obs.strategyIndex.toNat = 0)
    (hpixels : OnPixels p step.target obs) : step.kind = .click ∧ step.effect = .change := by
  obtain ⟨hc,_⟩ := compile_compiled h
  obtain ⟨rung,hrung,hvisual⟩ := hpixels
  rw [hfirst] at hrung
  have hvalid := hc.steps step (List.mem_of_getElem? here)
  by_cases hconclude : step.kind = .conclude
  · rw [validateStep,if_pos hconclude] at hvalid
    split_ifs at hvalid with htarget
    have hempty : step.target = "" := not_not.mp (not_or.mp htarget).1
    rw [hempty,compile_unnamed h] at hrung
    cases hrung
    cases hvisual
  · obtain ⟨target,hcarried⟩ := validateStep_carried hvalid hconclude
    have htarget : p.target step.target = target := by
      unfold Program.target
      rw [hc.spec,hcarried.there]
      rfl
    apply hcarried.visual
    rw [← htarget,Selector.primary,List.head?_eq_getElem?,hrung]
    exact hvisual

end

section
variable {p : Program} {s t : State} {step : Step} {event : Event} {inputs : Table String Value}
  {cmds : List Command}

/-- A run waits for an approval at a step that changes something, by an observation of one of its
rungs. -/
def Asked (p : Program) (s : State) : Prop :=
  s.phase = .awaitingApproval →
    0 ≤ s.observation.strategyIndex ∧ ∀ step, p.spec.steps[s.stepIndex]? = some step →
    step.effect = .change

lemma Move.asked (h : Move p s step event inputs t cmds)
    (here : p.spec.steps[s.stepIndex]? = some step) :
    Asked p t := by
  intro ht
  have hother : ∀ {q : Phase}, t.phase = q → q ≠ .awaitingApproval → False := by
    intro q hq hne
    exact hne (hq.symm.trans ht)
  cases h with
  | ask kind was acts change phase keeps _ _ seen index =>
    rw [seen,keeps.stepIndex,here]
    refine ⟨index,?_⟩
    intro step' hstep
    cases hstep
    exact change
  | halt phase => rcases phase with h | h | h <;> exact (hother h (by simp)).elim
  | start => cases ht
  | startConclude | conclude =>
    unfold finishConclude at ht
    dsimp only at ht
    split_ifs at ht
  | resume _ _ _ _ phase =>
    rw [phase] at ht
    split_ifs at ht
  | again was phase =>
    rw [phase] at ht
    rcases was with h | h <;> simp [h] at ht
  | enter _ _ _ _ _ _ _ _ _ phase => exact (hother phase (by simp)).elim
  | complete _ _ _ _ _ _ phase => exact (hother phase (by simp)).elim
  | recover _ _ _ _ _ _ _ _ phase => exact (hother phase (by simp)).elim
  | pause phase | act _ _ _ _ phase | approve _ _ _ phase | recovered _ _ _ _ phase
      | delivered _ _ _ _ phase
  | refused _ _ _ phase | retried _ _ _ phase | withdraw _ _ _ phase =>
    exact (hother phase (by simp)).elim

theorem Run.asked {start : State} {hist : List Accepted} (hstart : start.phase = .ready)
    (run : Run p start hist s) : Asked p s := by
  induction run with
  | nil =>
    intro h
    rw [hstart] at h
    cases h
  | snoc run h ih =>
    cases reduce_stepped h with
    | fence kind after none =>
      subst after
      exact ih
    | live kind step nonterminal here move late => exact move.asked here

/-- An act through an image is approved, unless it went past the checks of compiler and reducer. -/
lemma Move.approves {validateAnchor : VisualAnchor → Except String Unit} {digest : String}
    {c : Artifact}
    (hcompile : compile validateAnchor digest c = .ok p) {a : Accepted} (hasked : Asked p a.before)
    (here : p.spec.steps[a.before.stepIndex]? = some step)
    (h : Move p (a.before.clocked a.event) step a.event inputs a.after a.commands)
    (time : a.InTime p)
    (hnot : ¬ a.TakesPixels p inputs) {d : Command} (hd : d ∈ a.commands) (hact : d.kind = .act) :
    (d.recoveryID = "" → OnPixels p d.step.target a.after.observation → a.Approves d) ∧
    (d.recoveryID ≠ "" → HasPixels p d.step.target → a.Approves d) := by
  obtain ⟨hc,_⟩ := compile_compiled hcompile
  obtain ⟨before,event,after,commands⟩ := a
  dsimp only at *
  cases h with
  | act kind was acts read phase keeps _ _ seen index c' _ hid hr hstep resolved actionable =>
    obtain rfl := List.mem_singleton.mp hd
    refine ⟨?_,fun hne => (hne hr).elim⟩
    intro _ hpixels
    rw [hstep,seen] at hpixels
    by_cases hfirst : event.observation.strategyIndex.toNat = 0
    · exact (read (first_rung_approved hcompile here hfirst hpixels).2).elim
    · have hlater : 0 < event.observation.strategyIndex := by omega
      exact (hnot (.act step here time kind was acts read resolved actionable hlater hpixels)).elim
  | approve kind was names phase keeps _ _ seen c' _ hid hr hstep =>
    obtain rfl := List.mem_singleton.mp hd
    refine ⟨?_,fun hne => (hne hr).elim⟩
    intro _ hpixels
    obtain ⟨hindex,hchange⟩ := hasked was
    have hobs : after.observation = before.observation := seen
    rw [hstep,hobs] at hpixels
    have hclick : step.kind = .click := by
      by_cases hfirst : before.observation.strategyIndex.toNat = 0
      · exact (first_rung_approved hcompile here hfirst hpixels).1
      · have hlater : 0 < before.observation.strategyIndex := by omega
        by_contra hother
        exact hnot (.approve step here time kind was hother hlater hpixels)
    exact ⟨by rw [hstep,hclick],by rw [hstep,hchange step here],kind,names.1.trans hid.symm,names.2⟩
  | recover kind was free r mem picked room budget phase keeps _ recovery c' _ hid hr hstep
    unsure =>
    obtain rfl := List.mem_singleton.mp hd
    have hnamed : d.recoveryID ≠ "" := by
      rw [hr]
      exact (hc.recoveries.2 r mem).1
    refine ⟨fun he => (hnamed he).elim,?_⟩
    intro _ hpixels
    rw [hstep.2.2.1] at hpixels
    exact (hnot (.recover step here time kind was free unsure r picked budget hpixels)).elim
  | halt | pause | startConclude | conclude | complete | refused => cases hd
  | start _ _ _ _ c' hc' | enter _ _ _ _ _ _ _ _ _ _ _ _ _ c' hc' | ask _ _ _ _ _ _ _ _ _ _ c' hc'
  | recovered _ _ _ _ _ _ _ _ c' hc' | delivered _ _ _ _ _ _ _ _ c' hc'
      | retried _ _ _ _ _ _ _ _ _ c' hc'
  | withdraw _ _ _ _ _ _ _ c' hc' =>
    rw [List.mem_singleton.mp hd,hc'] at hact
    cases hact
  | resume _ _ _ _ _ _ _ c' hc' | again _ _ _ _ _ c' hc' =>
    rw [List.mem_singleton.mp hd,hc'] at hact
    split_ifs at hact

end

/-- In every run of a compiled program in which no event goes on by pixels past the checks, every
act on a pixel match is an approved click. -/
theorem pixelsApproved_of_none_taken {validateAnchor : VisualAnchor → Except String Unit}
    {digest : String}
    {c : Artifact} {p : Program} (hcompile : compile validateAnchor digest c = .ok p)
    {runID sessionID : String} {epoch : UInt64} {start s : State} {hist : List Accepted}
    (hnew : newState p runID sessionID epoch = .ok start) (run : Run p start hist s)
    (h : ∀ a ∈ hist, ∀ inputs, a.Given p inputs → ¬ a.TakesPixels p inputs) :
    PixelsApproved p hist := by
  intro a ha d hd hact
  obtain ⟨pre,post,rfl⟩ := List.append_of_mem ha
  obtain ⟨hbefore,inputs,hreduce⟩ := run.split
  cases reduce_stepped hreduce with
  | fence kind after none =>
    rw [none] at hd
    cases hd
  | live kind step nonterminal here move late =>
    have htime : a.InTime p := by
      by_contra hlate
      rw [late (not_le.mp hlate)] at hd
      cases hd
    exact move.approves hcompile (hbefore.asked (newState_ready hnew).1) here htime
      (h a ha inputs hreduce) hd hact

/-- A capability with the given first step over a plain target, an image, and a ladder that ends in
an image. -/
def pixelArtifact (step : Step) : Artifact :=
  let plain : Selector := .mk none "button" "OK" "" "" [] "" ""
  let image : Selector := .mk (some ⟨"anchor",8,8,64,64⟩) "" "" "" "" [] "" ""
  let ladder : Selector := .mk none "" "" "" "" [plain,image] "the label moves" "semantic"
  ⟨⟨[],((Table.empty.set "ladder" ladder).set "image" image).set "ok" plain,[],
    [],[step,checkStep],defaultLimits⟩,1,"send","r1","app",[]⟩

/-- An observation through the image at the given rung, and an approval of it. -/
def pixelEvents (rung : ℤ) : List Event :=
  let seen : Observation := ⟨some ⟨"t1","anchor",String.ofList (List.replicate 64 '0'),⟨0,0,8,8⟩⟩,
    "o1","t1",1,
    true,true,⟨.string,"x",0,false,""⟩,"",rung,""⟩
  [⟨1,"r","s",1,0,10,.start,"",.zero,.none,"",""⟩,⟨2,"r","s",1,0,20,.observed,"r:send",seen,.none,
    "",""⟩,
   ⟨3,"r","s",1,0,30,.approve,"r:send",seen,.none,"",""⟩]

def clickImage : Step := ⟨"send",.click,"image",.change,Ref.zero,Predicate.zero,"",.absent,"","",
    "",""⟩

def pressLadder : Step :=
  ⟨"send",.press,"ladder",.read,Ref.zero,Predicate.zero,"",.absent,"","","",""⟩

/-- The acts of a record, with what sent them out and whether they are on an image. -/
def pixelActs (p : Program) (hist : List Accepted) : List (EventKind × Bool × String) :=
  hist.flatMap (fun a => (a.commands.filter (fun c => c.kind = .act)).map (fun c => (a.event.kind,
    ((p.target c.step.target).ladder[a.after.observation.strategyIndex.toNat]?).any (fun rung =>
      rung.visual.isSome),
    c.recoveryID)))

lemma mem_pixelActs {p : Program} {hist : List Accepted} {e : EventKind × Bool × String}
    (h : e ∈ pixelActs p hist) : ∃ a ∈ hist, ∃ c ∈ a.commands, c.kind = .act ∧ a.event.kind = e.1 ∧
      c.recoveryID = e.2.2 ∧ (e.2.1 = true → OnPixels p c.step.target a.after.observation) := by
  obtain ⟨a,ha,h⟩ := List.mem_flatMap.mp h
  obtain ⟨c,hc,rfl⟩ := List.mem_map.mp h
  obtain ⟨hmem,hact⟩ := List.mem_filter.mp hc
  refine ⟨a,ha,c,hmem,by simpa using hact,rfl,rfl,?_⟩
  intro hany
  obtain ⟨rung,hrung,hvisual⟩ := (Option.any_eq_true _ _).mp hany
  exact ⟨rung,hrung,hvisual⟩

/-- A click on an image that its approval sends out. -/
theorem pixelsApproved_of_none_taken_clickImage : ∃ p start hist s,
    compile (fun _ => .ok ()) "digest" (pixelArtifact clickImage) = .ok p ∧
    newState p "r" "s" 1 = .ok start ∧
    Run p start hist s ∧ (EventKind.approve,true,"") ∈ pixelActs p hist ∧
    (∀ a ∈ hist, ∀ inputs, a.Given p inputs → ¬ a.TakesPixels p inputs) ∧
    PixelsApproved p hist := by
  have heval : (replayed (pixelArtifact clickImage) (pixelEvents 0)).map (fun r =>
    (pixelActs r.1 r.2.2.1,
      r.2.2.1.map (fun a => (a.before.observation.strategyIndex,
        a.event.observation.strategyIndex)))) =
      some ([(.approve,true,"")],[(0,0),(0,0),(0,0)]) := by
    decide
  obtain ⟨⟨p,start,hist,s⟩,hr,hboth⟩ := Option.map_eq_some_iff.mp heval
  obtain ⟨hacts,hrungs⟩ := Prod.mk.inj hboth
  obtain ⟨hp,hnew,run⟩ := replayed_run hr
  have hspec := (compile_compiled hp).1.spec
  have hnone : ∀ a ∈ hist, ∀ inputs, a.Given p inputs → ¬ a.TakesPixels p inputs := by
    intro a ha inputs _ htakes
    have hmem : (a.before.observation.strategyIndex,a.event.observation.strategyIndex) ∈ [(0,0),
      (0,0),((0,0) : ℤ × ℤ)] := by
      rw [← hrungs]
      exact List.mem_map_of_mem ha
    have hzero : a.before.observation.strategyIndex = 0 ∧
      a.event.observation.strategyIndex = 0 := by
      simpa using hmem
    cases htakes with
    | act _ _ _ _ _ _ _ _ _ later => omega
    | approve _ _ _ _ _ _ later => omega
    | recover _ _ _ _ _ _ _ r picked =>
      rw [hspec] at picked
      cases picked
  have hmem : (EventKind.approve,true,"") ∈ pixelActs p hist := by
    have hacts : pixelActs p hist = [(EventKind.approve,true,"")] := hacts
    rw [hacts]
    exact List.mem_cons_self
  exact ⟨p,start,hist,s,hp,hnew,run,hmem,hnone,pixelsApproved_of_none_taken hp hnew run hnone⟩

/-- A press that goes on by the image at the end of its ladder, with no approval. -/
theorem press_on_pixels_unapproved : ∃ p start hist s,
    compile (fun _ => .ok ()) "digest" (pixelArtifact pressLadder) = .ok p ∧
    newState p "r" "s" 1 = .ok start ∧
    Run p start hist s ∧ ¬ PixelsApproved p hist := by
  have heval : (replayed (pixelArtifact pressLadder) ((pixelEvents 1).take 2)).map (fun r =>
      pixelActs r.1 r.2.2.1) = some [(.observed,true,"")] := by
    decide
  obtain ⟨⟨p,start,hist,s⟩,hr,hacts⟩ := Option.map_eq_some_iff.mp heval
  obtain ⟨hp,hnew,run⟩ := replayed_run hr
  refine ⟨p,start,hist,s,hp,hnew,run,?_⟩
  intro happroved
  have hmem : (EventKind.observed,true,"") ∈ pixelActs p hist := by
    have hacts : pixelActs p hist = [(EventKind.observed,true,"")] := hacts
    rw [hacts]
    exact List.mem_cons_self
  obtain ⟨a,ha,c,hc,hact,hkind,hown,hpixels⟩ := mem_pixelActs hmem
  have happroves := (happroved a ha c hc hact).1 hown (hpixels rfl)
  rw [happroves.kind] at hkind
  cases hkind

end Manvi.Workflow
