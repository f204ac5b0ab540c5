import Manvi.Workflow.Budgets

/-! The compiler's analysis of outputs is sound: what it says is defined at a step is there when a
run is at it. -/
namespace Manvi.Workflow
open Manvi.Encoding

/-- A value that the extraction of an output may have stored. -/
def Extracted (p : Program) (name : String) (v : Value) : Prop :=
  ∃ step ∈ p.spec.steps, step.kind = .extract ∧ step.output = name ∧ v.type = step.outputType ∧
    v.validate = .ok () ∧ (step.outputType = .money → v.currency = step.currency)

/-- Everything that is said to be defined is present with its type. -/
def Available (outputs : Table String Value) (env : Env) : Prop :=
  ∀ e ∈ env.entries, ∃ v, outputs.get e.1 = some v ∧ v.type = e.2

/-- What all predecessors define is defined by each of them. -/
lemma mem_meet {defs : List Env} {preds : List ℕ} {e : String × ValueType}
    (h : e ∈ (meet defs preds).entries)
    {i : ℕ} (hi : i ∈ preds) : e ∈ ((defs[i]?).getD Table.empty).entries := by
  cases preds with
  | nil => cases hi
  | cons first rest =>
    obtain ⟨hfirst,hrest⟩ := List.mem_filter.mp h
    rcases List.mem_cons.mp hi with rfl | hi
    · exact hfirst
    · apply Table.mem_of_get
      have := List.all_eq_true.mp hrest i hi
      simpa using this

section
variable {c : Artifact} {p : Program} {s t : State} {step : Step} {event : Event}
    {inputs : Table String Value}
  {cmds : List Command} {defs : List Env}

lemma ne_extract_of_acts (h : step.kind.acts = true) : step.kind ≠ .extract := by
  intro hk
  rw [hk] at h
  cases h

/-- A step that is left has defined what the analysis says. -/
lemma Yields.available {env : Env} {outs : Table String Value} (h : Yields s step outs)
    (hacts : s.phase = .postAction → step.kind.acts = true) (henv : Available s.outputs env) :
    Available outs (defines env step) := by
  unfold defines
  cases h with
  | same h =>
    have hk : step.kind ≠ .extract := h.elim id (fun hpost => ne_extract_of_acts (hacts hpost))
    rw [if_neg hk]
    exact henv
  | extract v hk type =>
    rw [if_pos hk]
    intro e he
    rcases List.mem_cons.mp he with rfl | he
    · exact ⟨v,Table.get_set_self _ _ _,type⟩
    · obtain ⟨hmem,hne⟩ := List.mem_filter.mp he
      rw [Table.get_set_of_ne _ (by simpa using hne)]
      exact henv e hmem

lemma Yields.extracted {outs : Table String Value} (h : Yields s step outs)
    (hstep : step ∈ p.spec.steps)
    (hs : ∀ name v, s.outputs.get name = some v → Extracted p name v) {name : String} {v : Value}
    (hv : outs.get name = some v) : Extracted p name v := by
  cases h with
  | same => exact hs name v hv
  | extract w hk type valid currency =>
    rw [Table.get_set] at hv
    split_ifs at hv with hname
    · cases hv
      exact ⟨step,hstep,hk,hname.symm,type,valid,currency⟩
    · exact hs name v hv

/-- What was defined when a step was left is defined at the step it leads to. -/
lemma available_entering (hflow : Flow p defs) (hc : Compiled c p)
    (here : p.spec.steps[s.stepIndex]? = some step)
    {next : String} (edge : Edge step next) (hin : nextIndex p s next < p.spec.steps.length)
    {outs : Table String Value} (h : Available outs (defines (incoming p defs s.stepIndex) step)) :
    Available outs (incoming p defs (nextIndex p s next)) := by
  have hlt := hc.edge_lt here edge
  have hmem := hc.edge_mem here edge hin
  intro e he
  apply h
  unfold incoming at he
  rw [if_neg (by omega)] at he
  have hpred := mem_meet he hmem
  rwa [hflow.defines _ _ here,Option.getD_some] at hpred

/-- A run that has acted on its step, or is about to. -/
def Acted (s : State) : Prop :=
  s.phase = .awaitingApproval ∨ s.phase = .postAction ∨
  (s.phase = .acting ∧ s.activeRecovery = "") ∨
    (s.phase = .paused ∧ s.resumePhase = some .postAction)

/-- A live run has what the analysis promises at its step, and acts only at steps that act. -/
structure Sound (p : Program) (defs : List Env) (s : State) : Prop where
  available : Available s.outputs (incoming p defs s.stepIndex)
  extracted : ∀ name v, s.outputs.get name = some v → Extracted p name v
  acted : Acted s → ∀ step, p.spec.steps[s.stepIndex]? = some step → step.kind.acts = true
  resume : s.phase ≠ .paused → s.resumePhase = none

lemma not_acted_of_observing (h : s.phase = .observing) : ¬ Acted s := by
  simp [Acted,h]

/-- A run that stays at its step stays sound. -/
lemma Sound.stays (h : Sound p defs s) (here : p.spec.steps[s.stepIndex]? = some step)
    (keeps : t.stepIndex = s.stepIndex)
    (outputs : t.outputs = s.outputs) (acted : Acted t → Acted s ∨ step.kind.acts = true)
    (resume : t.phase ≠ .paused → t.resumePhase = none) : Sound p defs t := by
  refine ⟨?_,?_,?_,resume⟩
  · rw [outputs,keeps]
    exact h.available
  · rw [outputs]
    exact h.extracted
  · intro hacted step' hstep
    rw [keeps,here] at hstep
    cases hstep
    rcases acted hacted with hs | hs
    · exact h.acted hs step here
    · exact hs

lemma Sound.paused (h : Sound p defs s) (phase : t.phase = .paused) (rests : Rests s t)
    (hacted : Acted t) : Acted s := by
  have hresume : t.resumePhase = some .postAction := by
    simpa [Acted,phase] using hacted
  cases rests with
  | after was => exact .inr (.inl was)
  | before was resume =>
    have hnot : s.phase ≠ .paused := by
      rcases was with h | h <;> simp [h]
    rw [h.resume hnot,hresume] at resume
    simp at resume
  | still was resume => exact .inr (.inr (.inr ⟨was,resume ▸ hresume⟩))
  | unstarted _ resume =>
    rw [hresume] at resume
    cases resume

lemma Move.sound (h : Move p s step event inputs t cmds) (hc : Compiled c p) (hflow : Flow p defs)
    (here : p.spec.steps[s.stepIndex]? = some step) (hs : Sound p defs s) :
    t.terminal = true ∨ Sound p defs t := by
  have hnone : ∀ {q : Phase}, s.phase = q → q ≠ .paused → s.resumePhase = none := by
    intro q hq hne
    exact hs.resume (hq ▸ hne)
  cases h with
  | halt phase => exact .inl (terminal_of_ended phase)
  | startConclude | conclude => exact .inl (terminal_finishConclude _ _ _)
  | complete _ _ _ _ _ _ phase => exact .inl (by simp [State.terminal,phase])
  | pause phase keeps rests recovery =>
    exact .inr (hs.stays here keeps.stepIndex keeps.outputs
      (fun h => .inl (hs.paused phase rests h))
      (fun h => (h phase).elim))
  | start _ ready =>
    exact .inr (hs.stays here rfl rfl (fun h => (not_acted_of_observing rfl h).elim)
      (fun _ => hnone ready (by simp)))
  | resume _ paused _ keeps phase resumePhase =>
    refine .inr (hs.stays here keeps.stepIndex keeps.outputs ?_ (fun _ => resumePhase))
    intro hacted
    by_cases hpost : s.resumePhase = some .postAction
    · exact .inl (.inr (.inr (.inr ⟨paused,hpost⟩)))
    · rw [if_neg hpost] at phase
      exact (not_acted_of_observing phase hacted).elim
  | again was phase keeps resumePhase =>
    refine .inr (hs.stays here keeps.stepIndex keeps.outputs ?_ ?_)
    · intro hacted
      rcases was with h | h
      · exact (not_acted_of_observing (phase.trans h) hacted).elim
      · exact .inl (.inr (.inl h))
    · intro _
      rcases was with h | h
      · exact resumePhase.trans (hnone h (by simp))
      · exact resumePhase.trans (hnone h (by simp))
  | recover _ was _ r mem _ _ _ phase keeps resumePhase recovery =>
    refine .inr (hs.stays here keeps.stepIndex keeps.outputs ?_
      (fun _ => resumePhase.trans (hnone was (by simp))))
    intro hacted
    have hfree : t.activeRecovery = "" := by
      simpa [Acted,phase] using hacted
    rw [recovery] at hfree
    exact ((hc.recoveries.2 r mem).1 hfree).elim
  | enter _ was next edge yields into there _ _ phase keeps resumePhase =>
    have hpost : s.phase = .postAction → step.kind.acts = true :=
      fun h => hs.acted (.inr (.inl h)) step here
    have hresume : s.resumePhase = none := by
      rcases was with h | h
      · exact hnone h (by simp)
      · exact hnone h (by simp)
    have hindex : t.stepIndex = nextIndex p s next := keeps.stepIndex
    have houts : t.outputs = _ := keeps.outputs
    have hin := (List.getElem?_eq_some_iff.mp there).1
    refine .inr ⟨?_,?_,fun h => (not_acted_of_observing phase h).elim,
      fun _ => resumePhase.trans hresume⟩
    · rw [hindex,houts]
      exact available_entering hflow hc here edge hin (yields.available hpost hs.available)
    · intro name v hv
      rw [houts] at hv
      exact yields.extracted (List.mem_of_getElem? here) hs.extracted hv
  | ask _ was acts _ phase keeps resumePhase =>
    exact .inr (hs.stays here keeps.stepIndex keeps.outputs (fun _ => .inr acts)
      (fun _ => resumePhase.trans (hnone was (by simp))))
  | act _ was acts _ phase keeps resumePhase =>
    exact .inr (hs.stays here keeps.stepIndex keeps.outputs (fun _ => .inr acts)
      (fun _ => resumePhase.trans (hnone was (by simp))))
  | approve _ was _ phase keeps resumePhase =>
    exact .inr (hs.stays here keeps.stepIndex keeps.outputs (fun _ => .inl (.inl was))
      (fun _ => resumePhase.trans (hnone was (by simp))))
  | recovered _ _ was _ phase keeps resumePhase =>
    exact .inr (hs.stays here keeps.stepIndex keeps.outputs
      (fun h => (not_acted_of_observing phase h).elim)
      (fun _ => resumePhase.trans (hnone was (by simp))))
  | delivered _ _ was free phase keeps resumePhase =>
    exact .inr (hs.stays here keeps.stepIndex keeps.outputs
      (fun _ => .inl (.inr (.inr (.inl ⟨was,free⟩))))
      (fun _ => resumePhase.trans (hnone was (by simp))))
  | refused _ _ _ phase resumePhase _ _ _ keeps =>
    refine .inr (hs.stays here keeps.stepIndex keeps.outputs ?_ (fun h => (h phase).elim))
    intro hacted
    simp [Acted,phase,resumePhase] at hacted
  | retried _ _ was phase resumePhase _ _ _ keeps =>
    exact .inr (hs.stays here keeps.stepIndex keeps.outputs
      (fun h => (not_acted_of_observing phase h).elim)
      (fun _ => resumePhase.trans (hnone was (by simp))))
  | withdraw _ was _ phase keeps resumePhase =>
    exact .inr (hs.stays here keeps.stepIndex keeps.outputs
      (fun h => (not_acted_of_observing phase h).elim)
      (fun _ => resumePhase.trans (hnone was (by simp))))

end

/-- The reference that a step reads: what it enters, or what it compares with. -/
def Step.reads (step : Step) : Option Ref :=
  match step.kind with
  | .setValue | .typeText | .scroll => some step.input
  | .assert | .branch | .wait => if step.predicate.op = .exists then
    none else some step.predicate.expected
  | _ => none

section
variable {c : Artifact} {p : Program} {start s : State} {hist : List Accepted} {step : Step}
    {r : Ref}
  {defs : List Env}

lemma refType_of_reads {params : List Parameter} {available : Env}
    (h : validateReads params available step = .ok ()) (hr : step.reads = some r) :
    ∃ t, refType params available step.id r = .ok t := by
  unfold Step.reads at hr
  unfold validateReads at h
  cases hk : step.kind <;> rw [hk] at h hr <;> dsimp only at h hr
  case setValue | typeText | scroll =>
    cases hr
    obtain ⟨t,ht,_⟩ := bind_ok h
    exact ⟨t,ht⟩
  case assert | branch | wait =>
    split_ifs at h hr
    cases hr
    obtain ⟨t,ht,_⟩ := bind_ok h
    exact ⟨t,ht⟩
  all_goals cases hr

lemma validateRef_of_reads (h : validateStepKind c step = .ok ()) (hr : step.reads = some r) :
    validateRef c.parameters r = .ok () := by
  unfold Step.reads at hr
  unfold validateStepKind at h
  cases hk : step.kind <;> rw [hk] at h hr <;> dsimp only at h hr
  case setValue | typeText | scroll =>
    cases hr
    cases hv : validateRef c.parameters step.input with
    | error e =>
      rw [hv] at h
      cases h
    | ok u => rfl
  case assert | branch | wait =>
    split_ifs at hr with hop
    cases hr
    cases hp : validatePredicate c.parameters step.predicate with
    | error e =>
      rw [hp] at h
      cases h
    | ok u =>
      unfold validatePredicate at hp
      rw [if_neg hop] at hp
      split_ifs at hp
      exact hp
  all_goals cases hr

lemma forM_ok {ε α : Type} {f : α → Except ε PUnit} {xs : List α} (h : xs.forM f = .ok ()) {x : α}
    (hx : x ∈ xs) :
    f x = .ok () := by
  induction xs with
  | nil => cases hx
  | cons y ys ih =>
    obtain ⟨⟨⟩,hy,hys⟩ := bind_ok h
    rcases List.mem_cons.mp hx with rfl | hx
    · exact hy
    · exact ih hys hx

/-- A parameter that is known has an input. -/
lemma input_of_parameter {inputs : Table String Value} (h : p.validateInputs inputs = .ok ())
    {name : String}
    (hname : (parameterType p.spec.parameters name).isSome = true) :
    ∃ v, inputs.get name = some v := by
  obtain ⟨t,ht⟩ := Option.isSome_iff_exists.mp hname
  obtain ⟨parameter,hfind,_⟩ := Option.map_eq_some_iff.mp ht
  have hkey := List.find?_some hfind
  simp only [decide_eq_true_eq] at hkey
  unfold Program.validateInputs at h
  split_ifs at h with hcount
  · cases h
  · have hparameter := forM_ok h (List.mem_of_find?_eq_some hfind)
    rw [hkey] at hparameter
    cases hget : inputs.get name with
    | none =>
      rw [hget] at hparameter
      cases hparameter
    | some v => exact ⟨v,rfl⟩

/-- A reference that passed its check resolves once what it names is there. -/
lemma resolve_of_validateRef {params : List Parameter} {inputs outputs : Table String Value}
    (h : validateRef params r = .ok ())
    (hinput : (parameterType params r.key).isSome = true → ∃ v, inputs.get r.key = some v)
    (houtput : r.source = .output → ∃ v, outputs.get r.key = some v) :
    ∃ v, resolve r inputs outputs = .ok v := by
  unfold validateRef at h
  by_cases hextra : r.source ≠ .literal ∧ r.literal ≠ Value.zero
  · rw [if_pos hextra] at h
    cases h
  rw [if_neg hextra] at h
  unfold resolve
  cases hsource : r.source <;> rw [hsource] at h <;> dsimp only at h ⊢
  case literal =>
    by_cases hkey : r.key ≠ ""
    · rw [if_pos hkey] at h
      cases h
    · rw [if_neg hkey] at h
      rw [h]
      exact ⟨r.literal,rfl⟩
  case input =>
    cases hknown : parameterType params r.key with
    | none =>
      rw [hknown] at h
      cases h
    | some t =>
      obtain ⟨v,hv⟩ := hinput (by simp [hknown])
      rw [hv]
      exact ⟨v,rfl⟩
  case output =>
    obtain ⟨v,hv⟩ := houtput hsource
    rw [hv]
    exact ⟨v,rfl⟩
  case other => cases h

/-- The extraction of an output is the only one of it. -/
lemma Compiled.extract_unique (hc : Compiled c p) {a b : Step} (ha : a ∈ p.spec.steps)
    (hb : b ∈ p.spec.steps)
    (hka : a.kind = .extract) (hkb : b.kind = .extract) (hname : a.output = b.output) : a = b := by
  by_contra hne
  have : Std.Symm (fun x y : Step => x.kind = .extract → y.kind = .extract → x.output ≠ y.output) :=
    ⟨fun x y h hy hx heq => h hx hy heq.symm⟩
  exact hc.unique.forall ha hb hne hka hkb hname

/-- The state of a run is sound while the run lives. -/
theorem Run.sound (hc : Compiled c p) (hflow : Flow p defs) {runID sessionID : String}
    {epoch : UInt64}
    (hnew : newState p runID sessionID epoch = .ok start) (run : Run p start hist s) :
    s.terminal = true ∨ Sound p defs s := by
  have hready : Sound p defs start := by
    unfold newState at hnew
    split_ifs at hnew
    cases hnew
    refine ⟨?_,by simp,?_,fun _ => rfl⟩
    · intro e he
      cases he
    · intro hacted
      simp [Acted] at hacted
  induction run with
  | nil => exact .inr hready
  | @snoc hist s t event inputs cmds run h ih =>
    cases reduce_stepped h with
    | fence kind after none =>
      subst after
      exact ih.imp_right (fun h => ⟨h.available,h.extracted,h.acted,h.resume⟩)
    | live kind step nonterminal here move late =>
      rcases ih with ht | hs
      · rw [nonterminal] at ht
        cases ht
      · exact move.sound hc hflow here ⟨hs.available,hs.extracted,hs.acted,hs.resume⟩

end

/-- At every state of a run of a compiled program, what the present step reads can be read: an
output is there, with the type and the currency that its one extraction declares. -/
theorem reads_available {validateAnchor : VisualAnchor → Except String Unit} {digest : String}
    {c : Artifact}
    {p : Program} (hcompile : compile validateAnchor digest c = .ok p) {runID sessionID : String}
    {epoch : UInt64}
    {start s : State} {hist : List Accepted} (hnew : newState p runID sessionID epoch = .ok start)
    (run : Run p start hist s) (hlive : s.terminal = false) {step : Step}
    (here : p.spec.steps[s.stepIndex]? = some step) {r : Ref} (hr : step.reads = some r) :
    (r.source = .output → ∃ v extract, s.outputs.get r.key = some v ∧ extract ∈ p.spec.steps ∧
      extract.kind = .extract ∧ extract.output = r.key ∧
      (∀ other ∈ p.spec.steps, other.kind = .extract → other.output = r.key → other = extract) ∧
      v.type = extract.outputType ∧ (extract.outputType = .money → v.currency = extract.currency)) ∧
    ∀ inputs, p.validateInputs inputs = .ok () → ∃ v, resolve r inputs s.outputs = .ok v := by
  obtain ⟨hc,hvalid⟩ := compile_compiled hcompile
  obtain ⟨defs,hflow,_⟩ := hc.flow hvalid
  have hsound := (run.sound hc hflow hnew).resolve_left (by simp [hlive])
  obtain ⟨t,ht⟩ := refType_of_reads (hflow.reads _ _ here) hr
  have hpresent : r.source = .output → ∃ v, s.outputs.get r.key = some v := by
    intro hout
    unfold refType at ht
    rw [hout] at ht
    dsimp only at ht
    split at ht
    · cases ht
    · rename_i t' hget
      obtain ⟨v,hv,_⟩ := hsound.available _ (Table.mem_of_get hget)
      exact ⟨v,hv⟩
  refine ⟨?_,?_⟩
  · intro hout
    obtain ⟨v,hv⟩ := hpresent hout
    obtain ⟨extract,hmem,hkind,hname,htype,_,hcurrency⟩ := hsound.extracted _ _ hv
    refine ⟨v,extract,hv,hmem,hkind,hname,?_,htype,hcurrency⟩
    intro other hother hk hn
    exact hc.extract_unique hother hmem hk hkind (hn.trans hname.symm)
  · intro inputs hinputs
    have hconclude : step.kind ≠ .conclude := by
      intro hk
      simp [Step.reads,hk] at hr
    obtain ⟨target,hcarried⟩ :=
      validateStep_carried (hc.steps step (List.mem_of_getElem? here)) hconclude
    have hvalidRef := validateRef_of_reads hcarried.kind hr
    rw [← show p.spec.parameters = c.parameters by rw [hc.spec]] at hvalidRef
    exact resolve_of_validateRef hvalidRef (fun hk => input_of_parameter hinputs hk) hpresent

/-- A step that reads an amount off the screen, and one that compares with it. -/
def readTotal : Step := ⟨"read",.extract,"ok",.read,Ref.zero,Predicate.zero,"total",.money,"USD","",
    "",""⟩

def checkTotal : Step :=
  ⟨"check",.assert,"ok",.read,Ref.zero,⟨.equals,⟨.output,"total",Value.zero⟩⟩,"",.absent,"","",
    "",""⟩

def totalEvents : List Event :=
  [⟨1,"r","s",1,0,10,.start,"",.zero,.none,"",""⟩,
   ⟨2,"r","s",1,0,20,.observed,"r:read",⟨none,"o1","t1",1,true,true,⟨.money,"",5,false,"USD"⟩,"",0,
     ""⟩,.none,"",""⟩]

theorem reads_available_totalEvents : ∃ p start hist s,
    compile (fun _ => .ok ()) "digest" (simpleArtifact [readTotal,checkTotal] []) = .ok p ∧
    newState p "r" "s" 1 = .ok start ∧ Run p start hist s ∧ s.terminal = false ∧
    p.spec.steps[s.stepIndex]? = some checkTotal ∧ checkTotal.reads = some ⟨.output,"total",
      Value.zero⟩ ∧
    ∃ v, s.outputs.get "total" = some v ∧ v.type = .money := by
  have heval : (replayed (simpleArtifact [readTotal,checkTotal] []) totalEvents).map (fun r =>
      (r.2.2.2.terminal,r.1.spec.steps[r.2.2.2.stepIndex]?)) = some (false,some checkTotal) := by
    decide
  obtain ⟨⟨p,start,hist,s⟩,hr,hboth⟩ := Option.map_eq_some_iff.mp heval
  obtain ⟨hlive,hhere⟩ := Prod.mk.inj hboth
  obtain ⟨hp,hnew,run⟩ := replayed_run hr
  have hreads : checkTotal.reads = some ⟨.output,"total",Value.zero⟩ := rfl
  obtain ⟨v,extract,hv,hmem,hkind,hname,_,htype,_⟩ :=
    (reads_available hp hnew run hlive hhere hreads).1 rfl
  refine ⟨p,start,hist,s,hp,hnew,run,hlive,hhere,hreads,v,hv,?_⟩
  rw [(compile_compiled hp).1.spec] at hmem
  rcases List.mem_cons.mp hmem with rfl | hmem
  · exact htype
  · rw [List.mem_singleton.mp hmem] at hkind
    cases hkind

end Manvi.Workflow
