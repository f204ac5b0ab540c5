import Manvi.Workflow.Flow

/-! What a finished run carries: the outputs that its capability declares. -/
namespace Manvi.Workflow
open Manvi.Encoding

/-- A run that succeeds has every declared output, with its type and currency; one that ends in a
business outcome has what that outcome lists. -/
structure CarriesDeclared (c : Artifact) (s : State) : Prop where
  completed : s.phase = .completed → ∀ d ∈ c.outputs, ∃ v, s.outputs.get d.name = some v ∧
    v.type = d.type ∧ v.currency = d.currency
  concluded : s.phase = .concluded → ∃ o, c.outcomes.find? (fun o => o.id = s.outcome) = some o ∧
    o.kind = .business ∧ ∀ name ∈ o.outputs, ∃ v, s.outputs.get name = some v

/-- A run was live at a step for which something holds. -/
def At (p : Program) (hist : List Accepted) (P : ℕ → Step → Prop) : Prop :=
  ∃ a ∈ hist, a.before.terminal = false ∧ ∃ step, p.spec.steps[a.before.stepIndex]? = some step ∧
    P a.before.stepIndex step

/-- A run was at the extraction of an output. -/
def Visited (p : Program) (hist : List Accepted) (name : String) : Prop :=
  At p hist (fun _ step => step.kind = .extract ∧ step.output = name)

/-- A run was at the last step. -/
def AtLast (p : Program) (hist : List Accepted) : Prop :=
  At p hist (fun i _ => i+1 = p.spec.steps.length)

section
variable {c : Artifact} {p : Program} {s t : State} {step : Step} {event : Event}
    {inputs : Table String Value}
  {cmds : List Command} {defs : List Env} {hist : List Accepted} {a : Accepted}
  {P : ℕ → Step → Prop}

lemma At.mono (h : At p hist P) : At p (hist ++ [a]) P := by
  obtain ⟨b,hb,hrest⟩ := h
  exact ⟨b,List.mem_append_left _ hb,hrest⟩

lemma At.here (hlive : a.before.terminal = false)
    (here : p.spec.steps[a.before.stepIndex]? = some step)
    (h : P a.before.stepIndex step) : At p (hist ++ [a]) P :=
  ⟨a,List.mem_append_right _ List.mem_cons_self,hlive,step,here,h⟩

/-- An event of an ended run visits nothing. -/
lemma At.of_terminal (h : At p (hist ++ [a]) P) (hend : a.before.terminal = true) :
    At p hist P := by
  obtain ⟨b,hb,hlive,hrest⟩ := h
  rcases List.mem_append.mp hb with hb | hb
  · exact ⟨b,hb,hlive,hrest⟩
  · rw [List.mem_singleton.mp hb,hend] at hlive
    cases hlive

/-- What a live run has passed, it has stored, and what it has stored, it has visited. -/
structure Trail (p : Program) (hist : List Accepted) (s : State) : Prop where
  live : s.terminal = false
  behind : ∀ a ∈ hist, a.before.terminal = false → a.before.stepIndex ≤ s.stepIndex
  stored : ∀ a ∈ hist, a.before.terminal = false → a.before.stepIndex < s.stepIndex → ∀ step,
    p.spec.steps[a.before.stepIndex]? = some step → step.kind = .extract →
    (s.outputs.get step.output).isSome = true
  visited : ∀ name v, s.outputs.get name = some v → Visited p hist name

/-- How a run has ended: without a result, past its last step, or at a conclude step. -/
inductive Ending (p : Program) (defs : List Env) (hist : List Accepted) (s : State) : Prop
  | other (phase : s.phase ≠ .completed ∧ s.phase ≠ .concluded)
  | past (phase : s.phase = .completed) (last : AtLast p hist)
      (stored : ∀ name, Visited p hist name → (s.outputs.get name).isSome = true)
      (visited : ∀ name v, s.outputs.get name = some v → Visited p hist name)
      (extracted : ∀ name v, s.outputs.get name = some v → Extracted p name v)
  | conclude (i : ℕ) (step : Step) (there : p.spec.steps[i]? = some step)
      (kind : step.kind = .conclude)
      (outcome : s.outcome = step.outcome)
      (phase : s.phase = if ((p.spec.outcomes.find?
        (fun o => o.id = step.outcome)).map OutcomeDef.kind).getD
        .success = .business then .concluded else .completed)
      (available : Available s.outputs (incoming p defs i))
      (visited : ∀ name v, s.outputs.get name = some v → Visited p hist name)
      (extracted : ∀ name v, s.outputs.get name = some v → Extracted p name v)

/-- An output that a step keeps or stores is still there. -/
lemma Yields.isSome {outs : Table String Value} (h : Yields s step outs) {name : String}
    (hname : (s.outputs.get name).isSome = true) : (outs.get name).isSome = true := by
  cases h with
  | same => exact hname
  | extract v =>
    rw [Table.get_set]
    split_ifs
    · rfl
    · exact hname

/-- An extraction that is left has stored its output. -/
lemma Yields.stored {outs : Table String Value} (h : Yields s step outs)
    (hacts : s.phase = .postAction → step.kind.acts = true) (hk : step.kind = .extract) :
    (outs.get step.output).isSome = true := by
  cases h with
  | same h =>
    rcases h with hne | hpost
    · exact (hne hk).elim
    · exact (ne_extract_of_acts (hacts hpost) hk).elim
  | extract v =>
    rw [Table.get_set_self]
    rfl

/-- What is there after a step was visited, the step itself included. -/
lemma Yields.visited {outs : Table String Value} (h : Yields s step outs)
    (hs : ∀ name v, s.outputs.get name = some v → Visited p hist name)
    (hlive : a.before.terminal = false)
    (here : p.spec.steps[a.before.stepIndex]? = some step) {name : String} {v : Value}
    (hv : outs.get name = some v) :
    Visited p (hist ++ [a]) name := by
  cases h with
  | same => exact (hs name v hv).mono
  | extract w hk =>
    rw [Table.get_set] at hv
    split_ifs at hv with hname
    · exact At.here hlive here ⟨hk,hname.symm⟩
    · exact (hs name v hv).mono

/-- A run that stays at its step leaves the same trail. -/
lemma Trail.stays (h : Trail p hist s) (before : a.before = s) (keeps : t.stepIndex = s.stepIndex)
    (outputs : t.outputs = s.outputs) (live : t.terminal = false) : Trail p (hist ++ [a]) t := by
  refine ⟨live,?_,?_,?_⟩
  · intro b hb hlive
    rw [keeps]
    rcases List.mem_append.mp hb with hb | hb
    · exact h.behind b hb hlive
    · rw [List.mem_singleton.mp hb,before]
  · intro b hb hlive hlt step hstep hk
    rw [keeps] at hlt
    rw [outputs]
    rcases List.mem_append.mp hb with hb | hb
    · exact h.stored b hb hlive hlt step hstep hk
    · rw [List.mem_singleton.mp hb,before] at hlt
      exact (lt_irrefl _ hlt).elim
  · intro name v hv
    rw [outputs] at hv
    exact (h.visited name v hv).mono

/-- Everything that was visited is stored when a step is left. -/
lemma Trail.left (h : Trail p hist s) (before : a.before = s)
    (here : p.spec.steps[s.stepIndex]? = some step)
    (hacts : s.phase = .postAction → step.kind.acts = true) {outs : Table String Value}
    (yields : Yields s step outs)
    {b : Accepted} (hb : b ∈ hist ++ [a]) (hlive : b.before.terminal = false) {step' : Step}
    (hstep : p.spec.steps[b.before.stepIndex]? = some step') (hk : step'.kind = .extract) :
    (outs.get step'.output).isSome = true := by
  have hself : b.before.stepIndex = s.stepIndex → (outs.get step'.output).isSome = true := by
    intro hindex
    rw [hindex,here] at hstep
    cases hstep
    exact yields.stored hacts hk
  rcases List.mem_append.mp hb with hb | hb
  · rcases (h.behind b hb hlive).lt_or_eq with hlt | heq
    · exact yields.isSome (h.stored b hb hlive hlt step' hstep hk)
    · exact hself heq
  · apply hself
    rw [List.mem_singleton.mp hb,before]

/-- An edge leads past the steps only from the last one. -/
lemma Compiled.past_last (hc : Compiled c p) {next : String}
    (h : nextIndex p s next = p.spec.steps.length) :
    s.stepIndex+1 = p.spec.steps.length := by
  unfold nextIndex at h
  by_cases hn : next = ""
  · rwa [if_pos hn] at h
  · rw [if_neg hn,Program.position] at h
    cases hget : p.positions.get next with
    | none =>
      rw [hget,Option.getD_none] at h
      exact (hc.nonempty (List.length_eq_zero_iff.mp h.symm)).elim
    | some i =>
      rw [hget,Option.getD_some] at h
      exact absurd h (hc.inside next i hget).ne

lemma Yields.of_clocked {outs : Table String Value} (h : Yields (s.clocked event) step outs) :
    Yields s step outs := by
  cases h with
  | same h => exact .same h
  | extract v hk type valid currency => exact .extract v hk type valid currency

/-- A live run stays at work with its trail, or ends in one of the ways. -/
lemma Move.trail (h : Move p (s.clocked event) step event inputs t cmds) (hc : Compiled c p)
    (hflow : Flow p defs)
    (hlive : s.terminal = false) (here : p.spec.steps[s.stepIndex]? = some step)
    (hs : Sound p defs s)
    (htrail : Trail p hist s) :
    (t.terminal = true ∧ Ending p defs (hist ++ [⟨s,event,t,cmds⟩]) t) ∨
      Trail p (hist ++ [⟨s,event,t,cmds⟩]) t := by
  have hacts : s.phase = .postAction → step.kind.acts = true :=
    fun h => hs.acted (.inr (.inl h)) step here
  have hmem := List.mem_of_getElem? here
  have hstays : ∀ {q : Phase}, t.stepIndex = s.stepIndex → t.outputs = s.outputs → t.phase = q →
      q = .observing ∨ q = .awaitingApproval ∨ q = .acting ∨ q = .postAction ∨ q = .paused →
      Trail p (hist ++ [⟨s,event,t,cmds⟩]) t := by
    rintro q hindex houts rfl hq
    refine htrail.stays rfl hindex houts ?_
    rcases hq with h | h | h | h | h <;> simp [State.terminal,h]
  cases h with
  | halt phase =>
    refine .inl ⟨terminal_of_ended phase,.other ?_⟩
    rcases phase with h | h | h <;> simp [h]
  | startConclude _ _ _ ends =>
    exact .inl ⟨terminal_finishConclude _ _ _,
      .conclude s.stepIndex step here ends rfl rfl hs.available
      (fun name v hv => (htrail.visited name v hv).mono) hs.extracted⟩
  | conclude _ _ next edge yields into there ends _ keeps =>
    have hin := (List.getElem?_eq_some_iff.mp there).1
    have houts := keeps.outputs
    have hyields := yields.of_clocked
    refine .inl ⟨terminal_finishConclude _ _ _,.conclude _ into there ends rfl rfl ?_ ?_ ?_⟩
    · unfold finishConclude
      dsimp only
      rw [houts]
      exact available_entering hflow hc here edge hin (hyields.available hacts hs.available)
    · intro name v hv
      unfold finishConclude at hv
      dsimp only at hv
      rw [houts] at hv
      exact hyields.visited htrail.visited hlive here hv
    · intro name v hv
      unfold finishConclude at hv
      dsimp only at hv
      rw [houts] at hv
      exact hyields.extracted hmem hs.extracted hv
  | complete _ _ next edge yields past phase keeps =>
    have hlast := hc.past_last past
    have houts : t.outputs = _ := keeps.outputs
    have hyields := yields.of_clocked
    refine .inl ⟨by simp [State.terminal,phase],.past phase (At.here hlive here hlast) ?_ ?_ ?_⟩
    · rintro name ⟨b,hb,hblive,step',hstep,hk,rfl⟩
      rw [houts]
      exact htrail.left rfl here hacts hyields hb hblive hstep hk
    · intro name v hv
      rw [houts] at hv
      exact hyields.visited htrail.visited hlive here hv
    · intro name v hv
      rw [houts] at hv
      exact hyields.extracted hmem hs.extracted hv
  | enter _ _ next edge yields into there _ _ phase keeps =>
    have hlt := hc.edge_lt (s := s) here edge
    have hindex : t.stepIndex = nextIndex p s next := keeps.stepIndex
    have houts : t.outputs = _ := keeps.outputs
    have hyields := yields.of_clocked
    refine .inr ⟨by simp [State.terminal,phase],?_,?_,?_⟩
    · intro b hb hblive
      rcases List.mem_append.mp hb with hb | hb
      · have := htrail.behind b hb hblive
        omega
      · rw [List.mem_singleton.mp hb,hindex]
        exact hlt.le
    · intro b hb hblive _ step' hstep hk
      rw [houts]
      exact htrail.left rfl here hacts hyields hb hblive hstep hk
    · intro name v hv
      rw [houts] at hv
      exact hyields.visited htrail.visited hlive here hv
  | start => exact .inr (hstays rfl rfl rfl (by simp))
  | pause phase keeps => exact .inr (hstays keeps.stepIndex keeps.outputs phase (by simp))
  | resume _ _ _ keeps phase =>
    exact .inr (hstays keeps.stepIndex keeps.outputs phase (by split_ifs <;> simp))
  | again was phase keeps => exact .inr (hstays keeps.stepIndex keeps.outputs phase (by tauto))
  | recover _ _ _ _ _ _ _ _ phase keeps =>
    exact .inr (hstays keeps.stepIndex keeps.outputs phase (by simp))
  | refused _ _ _ phase _ _ _ _ keeps =>
    exact .inr (hstays keeps.stepIndex keeps.outputs phase (by simp))
  | retried _ _ _ phase _ _ _ _ keeps =>
    exact .inr (hstays keeps.stepIndex keeps.outputs phase (by simp))
  | ask _ _ _ _ phase keeps => exact .inr (hstays keeps.stepIndex keeps.outputs phase (by simp))
  | act _ _ _ _ phase keeps => exact .inr (hstays keeps.stepIndex keeps.outputs phase (by simp))
  | approve _ _ _ phase keeps => exact .inr (hstays keeps.stepIndex keeps.outputs phase (by simp))
  | recovered _ _ _ _ phase keeps =>
    exact .inr (hstays keeps.stepIndex keeps.outputs phase (by simp))
  | delivered _ _ _ _ phase keeps =>
    exact .inr (hstays keeps.stepIndex keeps.outputs phase (by simp))
  | withdraw _ _ _ phase keeps => exact .inr (hstays keeps.stepIndex keeps.outputs phase (by simp))

/-- An ended run stays ended as it was. -/
lemma Ending.fence (h : Ending p defs hist s) (hend : a.before.terminal = true)
    (hphase : t.phase = s.phase)
    (houts : t.outputs = s.outputs) (houtcome : t.outcome = s.outcome) :
    Ending p defs (hist ++ [a]) t := by
  cases h with
  | other phase => exact .other (by rw [hphase]; exact phase)
  | past phase last stored visited extracted =>
    refine .past (hphase.trans phase) last.mono ?_ ?_ ?_
    · intro name hname
      rw [houts]
      exact stored name (hname.of_terminal hend)
    · intro name v hv
      rw [houts] at hv
      exact (visited name v hv).mono
    · rw [houts]
      exact extracted
  | conclude i step there kind outcome phase available visited extracted =>
    refine .conclude i step there kind (houtcome.trans outcome) (hphase.trans phase) ?_ ?_ ?_
    · rw [houts]
      exact available
    · intro name v hv
      rw [houts] at hv
      exact (visited name v hv).mono
    · rw [houts]
      exact extracted

/-- Every run is live with a trail, or has ended in one of the ways. -/
theorem Run.ending (hc : Compiled c p) (hflow : Flow p defs) {start : State}
    {runID sessionID : String}
    {epoch : UInt64} (hnew : newState p runID sessionID epoch = .ok start)
    (run : Run p start hist s) :
    (s.terminal = true ∧ Ending p defs hist s) ∨ Trail p hist s := by
  have hready : Trail p [] start := by
    unfold newState at hnew
    split_ifs at hnew
    cases hnew
    exact ⟨rfl,by simp,by simp,by simp⟩
  induction run with
  | nil => exact .inr hready
  | @snoc hist s t event inputs cmds run h ih =>
    cases reduce_stepped h with
    | fence kind after none =>
      subst after none
      rcases ih with ⟨hend,hending⟩ | htrail
      · exact .inl ⟨hend,hending.fence hend rfl rfl rfl⟩
      · exact .inr (htrail.stays rfl rfl rfl htrail.live)
    | live kind step nonterminal here move late =>
      rcases ih with ⟨hend,_⟩ | htrail
      · rw [nonterminal] at hend
        cases hend
      · have hsound := (run.sound hc hflow hnew).resolve_left (by simp [nonterminal])
        exact move.trail hc hflow nonterminal here hsound htrail

lemma find?_of_nodup {α : Type} {f : α → String} {xs : List α} (hn : (xs.map f).Nodup) {x : α}
    (hx : x ∈ xs) :
    xs.find? (fun y => f y = f x) = some x := by
  induction xs with
  | nil => cases hx
  | cons y ys ih =>
    rw [List.map_cons,List.nodup_cons] at hn
    rcases List.mem_cons.mp hx with rfl | hx
    · exact List.find?_cons_of_pos (by simp)
    · have hne : f y ≠ f x := fun he => hn.1 (he ▸ List.mem_map_of_mem hx)
      rw [List.find?_cons_of_neg (by simpa using hne)]
      exact ih hn.2 hx

/-- Only money has a currency. -/
lemma currency_of_valid {v : Value} (h : v.validate = .ok ()) (hm : v.type ≠ .money) :
    v.currency = "" := by
  unfold Value.validate at h
  cases ht : v.type <;> rw [ht] at h <;> dsimp only at h
  case money => exact (hm ht).elim
  case string =>
    split_ifs at h with hbad
    simp only [not_or,not_not] at hbad
    exact hbad.2.2.2
  case integer =>
    split_ifs at h with _ hcur
    exact not_not.mp hcur
  case boolean =>
    split_ifs at h with hbad
    simp only [not_or,not_not] at hbad
    exact hbad.2.2
  all_goals cases h

/-- The value that an extraction stored has the type and the currency of its declaration. -/
lemma Compiled.declared (hc : Compiled c p) {d : OutputDecl} (hd : d ∈ c.outputs) {v : Value}
    (h : Extracted p d.name v) : v.type = d.type ∧ v.currency = d.currency := by
  obtain ⟨step,hmem,hkind,hname,htype,hvalid,hmoney⟩ := h
  obtain ⟨target,hcarried⟩ := validateStep_carried (hc.steps step hmem) (by simp [hkind])
  have hfind : c.outputs.find? (fun e => e.name = step.output) = some d := by
    rw [hname]
    exact find?_of_nodup hc.outputs.1 hd
  have hchecks := hcarried.kind
  unfold validateStepKind at hchecks
  rw [hkind] at hchecks
  dsimp only at hchecks
  rw [hfind] at hchecks
  split_ifs at hchecks with h1 h2
  dsimp only at hchecks
  split_ifs at hchecks with h3 h4
  have hdtype : d.type = step.outputType := not_not.mp h3
  refine ⟨htype.trans hdtype.symm,?_⟩
  by_cases hm : d.type = .money
  · rw [hmoney (hdtype.symm.trans hm)]
    by_contra hne
    exact h4 ⟨hm,fun heq => hne heq.symm⟩
  · have hcur := (hc.outputs.2 d hd).2 hm
    rw [hcur]
    exact currency_of_valid hvalid (fun h => hm (hdtype.trans (htype.symm.trans h)))

lemma validateOutcomes_kind {decls : List OutputDecl} {seen : List String}
    {outcomes : List OutcomeDef}
    (h : validateOutcomes decls seen outcomes = .ok ()) : ∀ o ∈ outcomes, o.kind = .success ∨
    o.kind = .business := by
  induction outcomes generalizing seen with
  | nil => simp
  | cons o rest ih =>
    rw [validateOutcomes] at h
    split_ifs at h with hname hkind
    obtain ⟨⟨⟩,_,h⟩ := bind_ok h
    intro q hq
    rcases List.mem_cons.mp hq with rfl | hq
    · by_contra hne
      exact hkind (not_or.mp hne)
    · exact ih h q hq

/-- The outputs that a conclude step needs are there when a run ends at it. -/
lemma concluded_required (hc : Compiled c p) (hflow : Flow p defs)
    (hvalid : ∀ (i : ℕ) (step : Step),
      p.spec.steps[i]? = some step → step.kind = .conclude →
      ∃ outcome, c.outcomes.find? (fun o => o.id = step.outcome) = some outcome ∧
        validateRequired c.outputs step.id ((defs[i]?).getD Table.empty)
        (requiredOutputs c.outputs outcome) = .ok ())
    {i : ℕ} (there : p.spec.steps[i]? = some step) (kind : step.kind = .conclude)
    {outputs : Table String Value}
    (h : Available outputs (incoming p defs i)) :
    ∃ o, c.outcomes.find? (fun o => o.id = step.outcome) = some o ∧
      ((p.spec.outcomes.find? (fun o => o.id = step.outcome)).map OutcomeDef.kind).getD .success =
      o.kind ∧
      ∀ name ∈ requiredOutputs c.outputs o, ∃ v, outputs.get name = some v := by
  obtain ⟨o,ho,hrequired⟩ := hvalid i step there kind
  have hdefs : (defs[i]?).getD Table.empty = incoming p defs i := by
    rw [hflow.defines i step there,Option.getD_some,defines,if_neg (by simp [kind])]
  rw [hdefs] at hrequired
  refine ⟨o,ho,?_,?_⟩
  · rw [show p.spec.outcomes = c.outcomes by rw [hc.spec],ho]
    rfl
  · intro name hname
    obtain ⟨t,ht,_⟩ := validateRequired_ok hrequired hname
    obtain ⟨v,hv,_⟩ := h _ (Table.mem_of_get ht)
    exact ⟨v,hv⟩

end

/-- A run of a compiled program carries what the capability declares exactly when it did not
complete at its last step, or was at the extraction of every declared output. -/
theorem carriesDeclared_iff {validateAnchor : VisualAnchor → Except String Unit} {digest : String}
    {c : Artifact}
    {p : Program} (hcompile : compile validateAnchor digest c = .ok p) {runID sessionID : String}
    {epoch : UInt64}
    {start s : State} {hist : List Accepted} (hnew : newState p runID sessionID epoch = .ok start)
    (run : Run p start hist s) : CarriesDeclared c s ↔
      (s.phase = .completed → AtLast p hist → ∀ d ∈ c.outputs, Visited p hist d.name) := by
  obtain ⟨hc,hvalid⟩ := compile_compiled hcompile
  obtain ⟨_,houtcomes⟩ := compile_checks hcompile
  obtain ⟨defs,hflow,hconclude⟩ := hc.flow hvalid
  have hdone : s.phase = .completed ∨ s.phase = .concluded → Ending p defs hist s := by
    intro hphase
    rcases run.ending hc hflow hnew with ⟨_,hending⟩ | htrail
    · exact hending
    · have := htrail.live
      rcases hphase with h | h <;> simp [State.terminal,h] at this
  constructor
  · intro hcarries hphase _ d hd
    obtain ⟨v,hv,_⟩ := hcarries.completed hphase d hd
    cases hdone (.inl hphase) with
    | other hne => exact (hne.1 hphase).elim
    | past _ _ _ visited => exact visited _ _ hv
    | conclude _ _ _ _ _ _ _ visited => exact visited _ _ hv
  · intro hlast
    refine ⟨?_,?_⟩
    · intro hphase d hd
      have hpresent : ∀ v, s.outputs.get d.name = some v → Extracted p d.name v →
          ∃ v, s.outputs.get d.name = some v ∧ v.type = d.type ∧ v.currency = d.currency :=
        fun v hv hextracted => ⟨v,hv,hc.declared hd hextracted⟩
      cases hdone (.inl hphase) with
      | other hne => exact (hne.1 hphase).elim
      | past _ last stored _ extracted =>
        obtain ⟨v,hv⟩ := Option.isSome_iff_exists.mp (stored _ (hlast hphase last d hd))
        exact hpresent v hv (extracted _ _ hv)
      | conclude i step there kind outcome phase available visited extracted =>
        obtain ⟨o,ho,hkind,hrequired⟩ := concluded_required hc hflow hconclude there kind available
        rw [hkind,hphase] at phase
        have hsuccess : o.kind = .success := by
          rcases validateOutcomes_kind houtcomes o (List.mem_of_find?_eq_some ho) with h | h
          · exact h
          · rw [if_pos h] at phase
            cases phase
        have hall : requiredOutputs c.outputs o = c.outputs.map OutputDecl.name :=
          if_pos ⟨hsuccess,List.ne_nil_of_mem hd⟩
        obtain ⟨v,hv⟩ := hrequired d.name (hall ▸ List.mem_map_of_mem hd)
        exact hpresent v hv (extracted _ _ hv)
    · intro hphase
      cases hdone (.inr hphase) with
      | other hne => exact (hne.2 hphase).elim
      | past hcompleted =>
        rw [hphase] at hcompleted
        cases hcompleted
      | conclude i step there kind outcome phase available visited extracted =>
        obtain ⟨o,ho,hkind,hrequired⟩ := concluded_required hc hflow hconclude there kind available
        rw [hkind,hphase] at phase
        have hbusiness : o.kind = .business := by
          by_contra hne
          rw [if_neg hne] at phase
          cases phase
        rw [outcome]
        refine ⟨o,ho,hbusiness,?_⟩
        have houts : requiredOutputs c.outputs o = o.outputs := if_neg (by simp [hbusiness])
        rwa [houts] at hrequired

/-- A capability that declares an output, and has a branch around its extraction to the last
step. -/
def branchArtifact : Artifact :=
  ⟨⟨[],Table.empty.set "ok" (.mk none "button" "OK" "" "" [] "" ""),[⟨"done",.success,[]⟩],[],
    [⟨"try",.branch,"ok",.read,Ref.zero,⟨.exists,Ref.zero⟩,"",.absent,"","","","last"⟩,readTotal,
     ⟨"end",.conclude,"",.none,Ref.zero,Predicate.zero,"",.absent,"","done","",""⟩,
     ⟨"last",.assert,"ok",.read,Ref.zero,⟨.exists,Ref.zero⟩,"",.absent,"","","",""⟩],
    defaultLimits⟩,1,"total","r1","app",[⟨"total",.money,"USD"⟩]⟩

def branchEvents (steps : List (String × Value)) : List Event :=
  ⟨1,"r","s",1,0,10,.start,"",.zero,.none,"",""⟩ ::
    steps.zipIdx.map (fun e => ⟨UInt64.ofNat (e.2+2),"r","s",1,0,20,.observed,e.1.1,
      ⟨none,"o","t1",1,true,true,e.1.2,"",0,""⟩,.none,"",""⟩)

/-- The branch to the extraction ends with the declared output. -/
theorem carriesDeclared_iff_branchArtifact : ∃ p start hist s,
    compile (fun _ => .ok ()) "digest" branchArtifact = .ok p ∧ newState p "r" "s" 1 = .ok start ∧
    Run p start hist s ∧ s.phase = .completed ∧ CarriesDeclared branchArtifact s := by
  have heval : (replayed branchArtifact (branchEvents [("r:try",⟨.string,"x",0,false,""⟩),
      ("r:read",⟨.money,"",5,false,"USD"⟩)])).map (fun r =>
      (r.2.2.2.phase,r.2.2.1.map (fun a => a.before.stepIndex))) = some (.completed,[0,0,1]) := by
    decide
  obtain ⟨⟨p,start,hist,s⟩,hr,hboth⟩ := Option.map_eq_some_iff.mp heval
  obtain ⟨hphase,hsteps⟩ := Prod.mk.inj hboth
  obtain ⟨hp,hnew,run⟩ := replayed_run hr
  refine ⟨p,start,hist,s,hp,hnew,run,hphase,(carriesDeclared_iff hp hnew run).mpr ?_⟩
  rintro _ ⟨a,ha,_,step,_,hlast⟩
  have hmem : a.before.stepIndex ∈ [0,0,1] := by
    rw [← hsteps]
    exact List.mem_map_of_mem ha
  have hspec := (compile_compiled hp).1.spec
  rw [hspec] at hlast
  change a.before.stepIndex+1 = 4 at hlast
  simp only [List.mem_cons,List.not_mem_nil,or_false] at hmem
  omega

/-- The other branch completes without it. -/
theorem branch_completes_without_output : ∃ p start hist s,
    compile (fun _ => .ok ()) "digest" branchArtifact = .ok p ∧ newState p "r" "s" 1 = .ok start ∧
    Run p start hist s ∧ Begins hist ∧ ¬ CarriesDeclared branchArtifact s := by
  have heval : (replayed branchArtifact (branchEvents [("r:try",Value.zero),
      ("r:last",⟨.string,"x",0,false,""⟩)])).map (fun r =>
      (r.2.2.2.phase,r.2.2.2.outputs.get "total",r.2.2.1.head?.map (fun a => a.event.kind))) =
      some (.completed,none,some .start) := by
    decide
  obtain ⟨⟨p,start,hist,s⟩,hr,hall⟩ := Option.map_eq_some_iff.mp heval
  obtain ⟨hphase,hrest⟩ := Prod.mk.inj hall
  obtain ⟨hnone,hfirst⟩ := Prod.mk.inj hrest
  obtain ⟨hp,hnew,run⟩ := replayed_run hr
  obtain ⟨a,ha,hkind⟩ := Option.map_eq_some_iff.mp hfirst
  obtain ⟨rest,hhist⟩ := List.head?_eq_some_iff.mp ha
  refine ⟨p,start,hist,s,hp,hnew,run,⟨a,rest,hhist,hkind⟩,?_⟩
  intro hcarries
  obtain ⟨v,hv,_⟩ := hcarries.completed hphase ⟨"total",.money,"USD"⟩ List.mem_cons_self
  have hnone : s.outputs.get "total" = none := hnone
  rw [hnone] at hv
  cases hv

end Manvi.Workflow
