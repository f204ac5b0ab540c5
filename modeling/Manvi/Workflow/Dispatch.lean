import Manvi.Workflow.Compiled

/-! Which acts are answered as sent, and that none of them is commanded again. -/
namespace Manvi.Workflow
open Manvi.Encoding

/-- The act that a receipt answers: the last one commanded. -/
def outstanding (hist : List Accepted) : Option Command :=
  ((hist.flatMap Accepted.commands).filter (fun c => c.kind = .act)).getLast?

/-- A receipt with delivery sent for the act that is outstanding. -/
def Accepted.Delivers (a : Accepted) : Prop :=
  a.before.phase = .acting ∧ a.event.kind = .receipt ∧ a.event.delivery = .sent

/-- An event within the active time of a run. -/
def Accepted.InTime (p : Program) (a : Accepted) : Prop :=
  a.event.elapsedMillis ≤ p.spec.limits.activeSeconds*1000

section
variable {hist : List Accepted} {a : Accepted}

lemma outstanding_snoc_of_still (h : Still a.commands) :
    outstanding (hist ++ [a]) = outstanding hist := by
  have hnone : a.commands.filter (fun c => c.kind = .act) = [] := by
    apply List.filter_eq_nil_iff.mpr
    intro c hc
    simpa using h c hc
  unfold outstanding
  rw [List.flatMap_append,List.filter_append,List.flatMap_singleton,hnone,List.append_nil]

lemma outstanding_snoc {c : Command} (h : outstanding [a] = some c) :
    outstanding (hist ++ [a]) = some c := by
  unfold outstanding at h ⊢
  rw [List.flatMap_append,List.filter_append,List.getLast?_append,h]
  rfl

lemma outstanding_snoc_act {c : Command} (h : a.commands = [c]) (hc : c.kind = .act) :
    outstanding (hist ++ [a]) = some c := by
  apply outstanding_snoc
  unfold outstanding
  rw [List.flatMap_singleton,h,List.filter_cons_of_pos (by simpa using hc),List.filter_nil]
  rfl

end

lemma still_single {c : Command} (h : c.kind ≠ .act) : Still [c] := by
  intro d hd
  rw [List.mem_singleton.mp hd]
  exact h

section
variable {p : Program} {s t : State} {step : Step} {event : Event} {inputs : Table String Value}
  {cmds : List Command}

/-- An act goes out, or none does and the run is not left waiting for one. -/
inductive Move.Acts (p : Program) (s t : State) (step : Step) (cmds : List Command) : Prop
  | act (c : Command) (only : cmds = [c]) (kind : c.kind = .act) (id : c.actionID = s.actionID p)
      (stepID : c.step.id = step.id) (phase : t.phase = .acting) (same : Keeps s t)
      (was : s.phase = .observing ∨ s.phase = .awaitingApproval)
      (own : c.recoveryID = "") (recovery : t.activeRecovery = s.activeRecovery)
  | recover (c : Command) (only : cmds = [c]) (kind : c.kind = .act)
      (id : c.actionID = s.actionID p)
      (stepID : c.step.id = step.id) (phase : t.phase = .acting) (was : s.phase = .observing)
      (runID : t.runID = s.runID) (stepIndex : t.stepIndex = s.stepIndex)
      (attempt : t.actionAttempt = s.actionAttempt) (r : Recovery) (mem : r ∈ p.spec.recoveries)
      (named : c.recoveryID = r.id) (recovery : t.activeRecovery = r.id)
  | none (still : Still cmds) (phase : t.phase ≠ .acting)

/-- Every move is one or the other. -/
lemma Move.acts (h : Move p s step event inputs t cmds) : Move.Acts p s t step cmds := by
  cases h with
  | halt phase => exact .none (by simp [Still]) (by rcases phase with h | h | h <;> simp [h])
  | pause phase => exact .none (by simp [Still]) (by simp [phase])
  | start _ _ _ _ c hc => exact .none (still_single (by simp [hc])) (by simp)
  | startConclude =>
    exact .none (by simp [Still]) (by unfold finishConclude; dsimp only; split_ifs <;> simp)
  | resume _ _ _ _ phase _ _ c hc =>
    refine .none (still_single ?_) ?_
    · rw [hc]
      split_ifs <;> simp
    · rw [phase]
      split_ifs <;> simp
  | again was phase _ _ _ c hc =>
    refine .none (still_single ?_) ?_
    · rw [hc]
      split_ifs <;> simp
    · rw [phase]
      rcases was with h | h <;> simp [h]
  | recover _ was _ r mem _ _ _ phase keeps _ recovery c hc hid hr hstep =>
    exact .recover c rfl hc hid hstep.1 phase was keeps.runID keeps.stepIndex keeps.attempt r mem hr
      recovery
  | enter _ _ _ _ _ _ _ _ _ phase _ _ _ c hc =>
    exact .none (still_single (by simp [hc])) (by simp [phase])
  | conclude =>
    exact .none (by simp [Still]) (by unfold finishConclude; dsimp only; split_ifs <;> simp)
  | complete _ _ _ _ _ _ phase => exact .none (by simp [Still]) (by simp [phase])
  | ask _ _ _ _ phase _ _ _ _ _ c hc => exact .none (still_single (by simp [hc])) (by simp [phase])
  | act _ was _ _ phase keeps _ recovery _ _ c hc hid hr hstep =>
    exact .act c rfl hc hid (congrArg Step.id hstep) phase keeps (.inl was) hr recovery
  | approve _ was _ phase keeps _ recovery _ c hc hid hr hstep =>
    exact .act c rfl hc hid (congrArg Step.id hstep) phase keeps (.inr was) hr recovery
  | recovered _ _ _ _ phase _ _ _ c hc =>
    exact .none (still_single (by simp [hc])) (by simp [phase])
  | delivered _ _ _ _ phase _ _ _ c hc =>
    exact .none (still_single (by simp [hc])) (by simp [phase])
  | refused _ _ _ phase => exact .none (by simp [Still]) (by simp [phase])
  | retried _ _ _ phase _ _ _ _ _ c hc =>
    exact .none (still_single (by simp [hc])) (by simp [phase])
  | withdraw _ _ _ phase _ _ _ c hc => exact .none (still_single (by simp [hc])) (by simp [phase])

end

/-- A run that acts waits for the last act commanded, which carries its present action. -/
def InFlight (p : Program) (hist : List Accepted) (s : State) : Prop :=
  s.phase = .acting → ∃ c, outstanding hist = some c ∧ c.actionID = s.actionID p ∧
    ∃ step, p.spec.steps[s.stepIndex]? = some step ∧ c.step.id = step.id

theorem Run.inFlight {p : Program} {start s : State} {hist : List Accepted}
    (hstart : start.phase ≠ .acting)
    (run : Run p start hist s) : InFlight p hist s := by
  induction run with
  | nil => exact fun h => (hstart h).elim
  | @snoc hist s t event inputs cmds run h ih =>
    intro hacting
    cases reduce_stepped h with
    | fence kind after none =>
      subst after none
      rw [outstanding_snoc_of_still (by simp [Still])]
      exact ih hacting
    | live kind step nonterminal here move late =>
      cases move.acts with
      | act c only hc hid hstep phase same was own recovery =>
        refine ⟨c,outstanding_snoc_act only hc,?_,step,?_,hstep⟩
        · rw [hid]
          exact same.actionID.symm
        · rw [same.stepIndex]
          exact here
      | recover c only hc hid hstep phase was runID stepIndex attempt =>
        refine ⟨c,outstanding_snoc_act only hc,?_,step,?_,hstep⟩
        · rw [hid]
          exact (actionID_congr runID stepIndex attempt).symm
        · rw [stepIndex]
          exact here
      | none still phase => exact (phase hacting).elim

/-- The step at i is left, or its act is sent and only looked at again, or the run has ended. -/
def SettledAt (i : ℕ) (s : State) : Prop :=
  s.terminal = true ∨ i < s.stepIndex ∨
    (s.stepIndex = i ∧ (s.phase = .postAction ∨
      (s.phase = .paused ∧ s.resumePhase = some .postAction)))

section
variable {c : Artifact} {p : Program} {s t : State} {step : Step} {event : Event}
    {inputs : Table String Value}
  {cmds : List Command} {i : ℕ}

/-- Steps are left forward. -/
lemma Move.stepIndex_le (h : Move p s step event inputs t cmds) (hc : Compiled c p)
    (here : p.spec.steps[s.stepIndex]? = some step) :
    t.terminal = true ∨ s.stepIndex ≤ t.stepIndex := by
  cases h with
  | halt phase => exact .inl (terminal_of_ended phase)
  | pause _ keeps => exact .inr keeps.stepIndex.ge
  | start => exact .inr (le_refl _)
  | startConclude => exact .inr (le_refl _)
  | resume _ _ _ keeps => exact .inr keeps.stepIndex.ge
  | again _ _ keeps => exact .inr keeps.stepIndex.ge
  | recover _ _ _ _ _ _ _ _ _ keeps => exact .inr keeps.stepIndex.ge
  | enter _ _ _ edge _ _ _ _ _ _ keeps =>
    right
    rw [keeps.stepIndex]
    exact (hc.edge_lt here edge).le
  | conclude => exact .inl (terminal_finishConclude _ _ _)
  | complete _ _ _ _ _ _ phase => exact .inl (by simp [State.terminal,phase])
  | ask _ _ _ _ _ keeps => exact .inr keeps.stepIndex.ge
  | act _ _ _ _ _ keeps => exact .inr keeps.stepIndex.ge
  | approve _ _ _ _ keeps => exact .inr keeps.stepIndex.ge
  | recovered _ _ _ _ _ keeps => exact .inr keeps.stepIndex.ge
  | delivered _ _ _ _ _ keeps => exact .inr keeps.stepIndex.ge
  | refused _ _ _ _ _ _ _ _ keeps => exact .inr keeps.stepIndex.ge
  | retried _ _ _ _ _ _ _ _ keeps => exact .inr keeps.stepIndex.ge
  | withdraw _ _ _ _ keeps => exact .inr keeps.stepIndex.ge

/-- A step whose act is sent is looked at again until it is left. -/
lemma Move.settled (h : Move p s step event inputs t cmds) (hc : Compiled c p)
    (here : p.spec.steps[s.stepIndex]? = some step)
    (hs : s.phase = .postAction ∨ (s.phase = .paused ∧ s.resumePhase = some .postAction)) :
    SettledAt s.stepIndex t ∧
      (t.stepIndex = s.stepIndex → ∀ d ∈ cmds, d.kind = .observeAfter) := by
  cases h with
  | halt phase => exact ⟨.inl (terminal_of_ended phase),by simp⟩
  | pause phase keeps rests =>
    refine ⟨.inr (.inr ⟨keeps.stepIndex,.inr ⟨phase,?_⟩⟩),by simp⟩
    cases rests with
    | after _ resume => exact resume
    | before h => rcases h with h | h <;> simp [h] at hs
    | still h resume =>
      rw [resume]
      rcases hs with hs | hs
      · simp [h] at hs
      · exact hs.2
    | unstarted h => simp [h] at hs
  | resume _ paused _ keeps phase _ _ d hd =>
    have hresume : s.resumePhase = some .postAction := by
      rcases hs with hs | hs
      · simp [paused] at hs
      · exact hs.2
    rw [hresume,if_pos rfl] at phase hd
    refine ⟨.inr (.inr ⟨keeps.stepIndex,.inl phase⟩),?_⟩
    intro _ d' hd'
    rw [List.mem_singleton.mp hd']
    exact hd
  | again was phase keeps _ _ d hd =>
    have hpost : s.phase = .postAction := by
      rcases hs with hs | hs
      · exact hs
      · rcases was with h | h <;> simp [h] at hs
    rw [hpost] at phase hd
    refine ⟨.inr (.inr ⟨keeps.stepIndex,.inl phase⟩),?_⟩
    intro _ d' hd'
    rw [List.mem_singleton.mp hd']
    exact hd
  | enter _ _ _ edge _ _ _ _ _ _ keeps =>
    have hlt : s.stepIndex < t.stepIndex := by
      rw [keeps.stepIndex]
      exact hc.edge_lt here edge
    exact ⟨.inr (.inl hlt),fun he => (hlt.ne' he).elim⟩
  | conclude => exact ⟨.inl (terminal_finishConclude _ _ _),by simp⟩
  | complete _ _ _ _ _ _ phase => exact ⟨.inl (by simp [State.terminal,phase]),by simp⟩
  | start _ was | startConclude _ was | recover _ was | ask _ was | act _ was | approve _ was
  | withdraw _ was => simp [was] at hs
  | recovered _ _ was | delivered _ _ was | refused _ _ was | retried _ _ was => simp [was] at hs

/-- What is settled stays settled. -/
lemma SettledAt.after (hc : Compiled c p) (hs : SettledAt i s)
    (h : Stepped p s event inputs t cmds) :
    SettledAt i t := by
  cases h with
  | fence kind after none =>
    subst after
    exact hs
  | live kind step nonterminal here move late =>
    rcases hs with hs | hs | ⟨rfl,hs⟩
    · rw [nonterminal] at hs
      cases hs
    · rcases move.stepIndex_le hc here with h | h
      · exact .inl h
      · exact .inr (.inl (hs.trans_le h))
    · exact (move.settled hc here hs).1

/-- A run keeps its identifier while it lives. -/
lemma Move.runID (h : Move p s step event inputs t cmds) :
    t.terminal = true ∨ t.runID = s.runID := by
  cases h with
  | halt phase => exact .inl (terminal_of_ended phase)
  | pause _ keeps => exact .inr keeps.runID
  | start | startConclude => exact .inr rfl
  | resume _ _ _ keeps => exact .inr keeps.runID
  | again _ _ keeps => exact .inr keeps.runID
  | recover _ _ _ _ _ _ _ _ _ keeps => exact .inr keeps.runID
  | enter _ _ _ _ _ _ _ _ _ _ keeps => exact .inr keeps.runID
  | conclude _ _ _ _ _ _ _ _ _ keeps => exact .inr keeps.runID
  | complete _ _ _ _ _ _ phase => exact .inl (by simp [State.terminal,phase])
  | ask _ _ _ _ _ keeps => exact .inr keeps.runID
  | act _ _ _ _ _ keeps => exact .inr keeps.runID
  | approve _ _ _ _ keeps => exact .inr keeps.runID
  | recovered _ _ _ _ _ keeps => exact .inr keeps.runID
  | delivered _ _ _ _ _ keeps => exact .inr keeps.runID
  | refused _ _ _ _ _ _ _ _ keeps => exact .inr keeps.runID
  | retried _ _ _ _ _ _ _ _ keeps => exact .inr keeps.runID
  | withdraw _ _ _ _ keeps => exact .inr keeps.runID

/-- The act of a step is answered as sent with no recovery about, or too late: the step is
settled. -/
lemma Move.delivers_settled (h : Move p s step event inputs t cmds) (kind : event.kind = .receipt)
    (sent : event.delivery = .sent) (free : s.activeRecovery = "" ∨ cmds = []) :
    SettledAt s.stepIndex t ∧ ∀ d ∈ cmds, d.kind = .observeAfter := by
  cases h with
  | halt phase => exact ⟨.inl (terminal_of_ended phase),by simp⟩
  | pause _ _ _ _ _ hk => exact (hk.2.2.1 kind).elim
  | delivered _ _ _ _ phase keeps _ _ d hd =>
    refine ⟨.inr (.inr ⟨keeps.stepIndex,.inl phase⟩),?_⟩
    intro d' hd'
    rw [List.mem_singleton.mp hd']
    exact hd
  | recovered _ _ _ busy => exact (free.elim busy (by simp)).elim
  | again _ _ _ _ _ _ _ _ hk => rcases hk with h | h <;> simp [h] at kind
  | refused _ hn | retried _ hn => simp [hn] at sent
  | start hk | startConclude hk | resume hk | recover hk | enter hk | conclude hk | complete hk
      | ask hk | act hk
  | approve hk | withdraw hk => simp [hk] at kind

end

/-! The name of an action tells its step. -/

lemma not_mem_of_namePattern {s : String} (h : namePattern s = true) : ':' ∉ s.toList := by
  unfold namePattern at h
  split at h
  · cases h
  · rename_i ch cs hs
    rw [hs]
    simp only [Bool.and_eq_true,List.all_eq_true] at h
    intro hmem
    rcases List.mem_cons.mp hmem with hch | hcs
    · rw [← hch] at h
      exact absurd h.1.1 (by decide)
    · exact absurd (h.2 ':' hcs) (by decide)

/-- What stands before the first colon. -/
lemma takeWhile_colon {name rest : List Char} (hn : ':' ∉ name)
    (hr : rest = [] ∨ ∃ cs, rest = ':' :: cs) :
    (name ++ rest).takeWhile (fun ch => ch ≠ ':') = name := by
  have hall : ∀ ch ∈ name, decide (ch ≠ ':') = true := by
    intro ch hch
    simp only [ne_eq,decide_not,Bool.not_eq_true',decide_eq_false_iff_not]
    rintro rfl
    exact hn hch
  rw [List.takeWhile_append_of_pos hall]
  rcases hr with rfl | ⟨cs,rfl⟩
  · simp
  · simp

/-- The part of an action's name after the run: the step, and which attempt it is. -/
lemma actionID_toList {p : Program} {s : State} {step : Step}
    (h : p.spec.steps[s.stepIndex]? = some step) :
    ∃ rest, (rest = [] ∨ ∃ cs, rest = ':' :: cs) ∧
      (s.actionID p).toList = s.runID.toList ++ ':' :: (step.id.toList ++ rest) := by
  unfold State.actionID
  rw [h]
  dsimp only
  split_ifs
  · refine ⟨(s!":attempt:{s.actionAttempt+1}").toList,.inr ?_,?_⟩
    · exact ⟨_,by simp only [String.toList_append]; rfl⟩
    · simp only [String.toList_append,List.append_assoc]
      rfl
  · refine ⟨[],.inl rfl,?_⟩
    simp only [String.toList_append,List.append_assoc,List.append_nil]
    rfl

lemma step_of_actionID {p : Program} {s t : State} {a b : Step}
    (hs : p.spec.steps[s.stepIndex]? = some a)
    (ht : p.spec.steps[t.stepIndex]? = some b) (hrun : t.runID = s.runID)
    (ha : namePattern a.id = true)
    (hb : namePattern b.id = true) (hid : t.actionID p = s.actionID p) : b.id = a.id := by
  obtain ⟨u,hu,hs'⟩ := actionID_toList hs
  obtain ⟨v,hv,ht'⟩ := actionID_toList ht
  rw [hid,hs',hrun] at ht'
  have hrest := (List.cons.inj (List.append_cancel_left ht')).2
  have h1 := takeWhile_colon (not_mem_of_namePattern ha) hu
  have h2 := takeWhile_colon (not_mem_of_namePattern hb) hv
  rw [← hrest,h1] at h2
  exact String.toList_inj.mp h2.symm

section
variable {c : Artifact} {p : Program} {start s : State} {hist pre mid post : List Accepted}
    {a b : Accepted}

theorem Run.runID (run : Run p start hist s) : s.terminal = true ∨ s.runID = start.runID := by
  induction run with
  | nil => exact .inr rfl
  | snoc run h ih =>
    cases reduce_stepped h with
    | fence kind after none =>
      subst after
      exact ih
    | live kind step nonterminal here move late =>
      rcases move.runID with h | h
      · exact .inl h
      · right
        rw [h]
        exact ih.resolve_left (by simp [nonterminal])

/-- A receipt that answers a step's own act, or comes too late, settles the step for the rest of the
run. -/
lemma Run.settled (hc : Compiled c p) (run : Run p start (pre ++ b :: mid) s) (hb : b.Delivers)
    (free : b.before.activeRecovery = "" ∨ ¬ b.InTime p) :
    SettledAt b.before.stepIndex s ∧ ∀ d ∈ b.commands, d.kind = .observeAfter := by
  obtain ⟨_,inputs,hreduce⟩ := run.split
  obtain ⟨_,hkind,hsent⟩ := hb
  cases reduce_stepped hreduce with
  | fence kind =>
    rw [hkind] at kind
    cases kind
  | live kind step nonterminal here move late =>
    have hfree : b.before.activeRecovery = "" ∨ b.commands = [] :=
      free.imp_right (fun h => late (not_le.mp h))
    obtain ⟨hsettled,hcmds⟩ := move.delivers_settled hkind hsent hfree
    refine ⟨run.since hsettled ?_,hcmds⟩
    intro s t event inputs cmds hstep hs
    exact hs.after hc hstep

/-- Where an act goes out, no step is settled but an earlier one. -/
lemma acts_after {i : ℕ} {d : Command} {inputs : Table String Value} (hs : SettledAt i a.before)
    (hreduce : reduce p a.before a.event inputs = .ok (a.after,a.commands)) (hd : d ∈ a.commands)
    (hact : d.kind = .act) : a.before.terminal = false ∧ i < a.before.stepIndex ∧
      d.actionID = a.before.actionID p ∧ ∃ step, p.spec.steps[a.before.stepIndex]? = some step := by
  cases reduce_stepped hreduce with
  | fence kind after none =>
    rw [none] at hd
    cases hd
  | live kind step nonterminal here move late =>
    have hlater : a.before.phase = .observing ∨ a.before.phase = .awaitingApproval →
      i < a.before.stepIndex := by
      intro hwas
      rcases hs with hs | hs | ⟨_,hs⟩
      · rw [nonterminal] at hs
        cases hs
      · exact hs
      · rcases hwas with h | h <;> simp [h] at hs
    cases move.acts with
    | act c only _ hid _ _ _ was =>
      rw [only] at hd
      rw [List.mem_singleton.mp hd]
      exact ⟨nonterminal,hlater was,hid,step,here⟩
    | recover c only _ hid _ _ was =>
      rw [only] at hd
      rw [List.mem_singleton.mp hd]
      exact ⟨nonterminal,hlater (.inl was),hid,step,here⟩
    | none still => exact (still d hd hact).elim

end

/-- No act carries the name of an act that was answered as sent before. -/
def NeverReused (hist : List Accepted) : Prop :=
  ∀ pre b mid a post, hist = pre ++ b :: (mid ++ a :: post) → b.Delivers → ∀ c,
  outstanding pre = some c →
    ∀ d ∈ a.commands, d.kind = .act → d.actionID ≠ c.actionID

/-- A receipt in time that answers as sent while a recovery is under way. -/
def Accepted.DeliversRecovery (p : Program) (a : Accepted) : Prop :=
  a.Delivers ∧ a.before.activeRecovery ≠ "" ∧ a.InTime p

/-- In every run of a compiled program in which no recovery is answered as sent, the name of an act
that was answered as sent is never used for another act. -/
theorem neverReused_of_no_delivered_recovery {validateAnchor : VisualAnchor → Except String Unit}
    {digest : String} {c : Artifact} {p : Program}
    (hcompile : compile validateAnchor digest c = .ok p)
    {runID sessionID : String} {epoch : UInt64} {start s : State} {hist : List Accepted}
    (hnew : newState p runID sessionID epoch = .ok start) (run : Run p start hist s)
    (h : ∀ a ∈ hist, ¬ a.DeliversRecovery p) : NeverReused hist := by
  obtain ⟨hc,_⟩ := compile_compiled hcompile
  have hready := (newState_ready hnew).1
  intro pre b mid a post hsplit hb act hact d hd hkind hid
  subst hsplit
  have hfree : b.before.activeRecovery = "" ∨ ¬ b.InTime p := by
    by_contra hnot
    simp only [not_or,not_not] at hnot
    exact h b (by simp) ⟨hb,hnot⟩
  have hsplit : pre ++ b :: (mid ++ a :: post) = (pre ++ b :: mid) ++ a :: post := by simp
  obtain ⟨hpre,inputsb,_⟩ := run.split
  rw [hsplit] at run
  obtain ⟨hbefore,inputs,hreduce⟩ := run.split
  obtain ⟨hsettled,_⟩ := hbefore.settled hc hb hfree
  obtain ⟨hlive,hlater,hdid,step,hstep⟩ := acts_after hsettled hreduce hd hkind
  obtain ⟨act',hact',hactid,stepb,hstepb,_⟩ := hpre.inFlight (by simp [hready]) hb.1
  rw [hact] at hact'
  cases hact'
  have hlived : b.before.terminal = false := by
    simp [State.terminal,hb.1]
  have hrun : a.before.runID = b.before.runID := by
    rw [hbefore.runID.resolve_left (by simp [hlive]),hpre.runID.resolve_left (by simp [hlived])]
  rw [hdid,hactid] at hid
  have hname := step_of_actionID hstepb hstep hrun (hc.names _ (List.mem_of_getElem? hstepb))
    (hc.names _ (List.mem_of_getElem? hstep)) hid
  have := hc.index_unique hstep hstepb hname
  omega

/-- The events of a run in which a dialog is closed before the step itself acts. -/
def dialogEvents : List Event :=
  [⟨1,"r","s",1,0,10,.start,"",.zero,.none,"",""⟩,
   ⟨2,"r","s",1,0,20,.observed,"r:send",⟨none,"o1","t1",1,true,false,⟨.string,"x",0,false,""⟩,"",0,
     "dialog"⟩,.none,"",""⟩,
   ⟨3,"r","s",1,0,30,.receipt,"r:send",.zero,.sent,"",""⟩,
   ⟨4,"r","s",1,0,40,.observed,"r:send",⟨none,"o2","t1",1,true,true,Value.zero,"",0,""⟩,.none,
     "",""⟩]

/-- The events of a run of one act that is sent. -/
def sentEvents : List Event :=
  [⟨1,"r","s",1,0,10,.start,"",.zero,.none,"",""⟩,
   ⟨2,"r","s",1,0,20,.observed,"r:send",⟨none,"o1","t1",1,true,true,Value.zero,"",0,""⟩,.none,
     "",""⟩,
   ⟨3,"r","s",1,0,30,.receipt,"r:send",.zero,.sent,"",""⟩]

theorem neverReused_of_no_delivered_recovery_sentEvents : ∃ p start hist s,
    compile (fun _ => .ok ()) "digest" (simpleArtifact [pressStep .read,checkStep] []) = .ok p ∧
    newState p "r" "s" 1 = .ok start ∧ Run p start hist s ∧ (outstanding hist).isSome = true ∧
    (∀ a ∈ hist, ¬ a.DeliversRecovery p) ∧ NeverReused hist := by
  have heval : (replayed (simpleArtifact [pressStep .read,checkStep] []) sentEvents).map (fun r =>
      ((outstanding r.2.2.1).isSome,r.2.2.1.map (fun a => a.before.activeRecovery))) = some (true,
        ["","",""]) := by
    decide
  obtain ⟨⟨p,start,hist,s⟩,hr,hboth⟩ := Option.map_eq_some_iff.mp heval
  obtain ⟨hout,hfree⟩ := Prod.mk.inj hboth
  obtain ⟨hp,hnew,run⟩ := replayed_run hr
  have hnone : ∀ a ∈ hist, ¬ a.DeliversRecovery p := by
    intro a ha hd
    have hmem : a.before.activeRecovery ∈ ["","",""] := by
      rw [← hfree]
      exact List.mem_map_of_mem ha
    exact hd.2.1 (by simpa using hmem)
  exact ⟨p,start,hist,s,hp,hnew,run,hout,hnone,
    neverReused_of_no_delivered_recovery hp hnew run hnone⟩

/-- A step acts under the name that its recovery was sent with. -/
theorem recovery_name_reused : ∃ p start hist s,
    compile (fun _ => .ok ()) "digest" (simpleArtifact [pressStep .read,checkStep] [closeDialog]) =
    .ok p ∧
    newState p "r" "s" 1 = .ok start ∧ Run p start hist s ∧ ¬ NeverReused hist := by
  have heval : (replayed (simpleArtifact [pressStep .read,
    checkStep] [closeDialog]) dialogEvents).map (fun r =>
      r.2.2.1.map (fun a => ((a.before.phase,a.event.kind,a.event.delivery),
        (outstanding [a]).map Command.actionID))) =
      some [((.ready,.start,.none),none),((.observing,.observed,.none),some "r:send"),
        ((.acting,.receipt,.sent),none),((.observing,.observed,.none),some "r:send")] := by
    decide
  obtain ⟨⟨p,start,hist,s⟩,hr,hkinds⟩ := Option.map_eq_some_iff.mp heval
  obtain ⟨hp,hnew,run⟩ := replayed_run hr
  refine ⟨p,start,hist,s,hp,hnew,run,?_⟩
  intro hnever
  obtain ⟨a1,rest,rfl,-,hrest⟩ := List.map_eq_cons_iff.mp hkinds
  obtain ⟨a2,rest,rfl,h2,hrest⟩ := List.map_eq_cons_iff.mp hrest
  obtain ⟨a3,rest,rfl,h3,hrest⟩ := List.map_eq_cons_iff.mp hrest
  obtain ⟨a4,rest,rfl,h4,hnil⟩ := List.map_eq_cons_iff.mp hrest
  obtain ⟨c,hc,hcid⟩ := Option.map_eq_some_iff.mp (Prod.mk.inj h2).2
  obtain ⟨d,hd,hdid⟩ := Option.map_eq_some_iff.mp (Prod.mk.inj h4).2
  obtain ⟨hphase,hevent⟩ := Prod.mk.inj (Prod.mk.inj h3).1
  obtain ⟨hdmem,hdact⟩ := List.mem_filter.mp (List.mem_of_getLast? hd)
  have hpre : outstanding ([a1] ++ [a2]) = some c := outstanding_snoc hc
  refine hnever [a1,a2] a3 [] a4 rest rfl ⟨hphase,
    Prod.mk.inj hevent⟩ c hpre d ?_ (by simpa using hdact) ?_
  · simpa using hdmem
  · rw [hcid,hdid]

end Manvi.Workflow
