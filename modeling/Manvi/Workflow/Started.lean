import Manvi.Workflow.Compiled

/-! Nothing is commanded before a start with inputs that the program takes. -/
namespace Manvi.Workflow
open Manvi.Encoding

/-- An accepted start, with inputs that passed. -/
def Accepted.Starts (p : Program) (a : Accepted) : Prop :=
  a.event.kind = .start ∧ ∃ inputs, p.validateInputs inputs = .ok () ∧
    reduce p a.before a.event inputs = .ok (a.after,a.commands)

/-- Every command comes with or after a validated start, and for a step that does not conclude. -/
def StartedFirst (p : Program) (hist : List Accepted) : Prop :=
  ∀ pre a post, hist = pre ++ a :: post → ∀ c ∈ a.commands,
    (∃ b ∈ pre ++ [a], b.Starts p) ∧
    ∃ step, p.spec.steps[a.after.stepIndex]? = some step ∧ c.step.id = step.id ∧
    step.kind ≠ .conclude

/-- A resume that a run takes in time, though nothing was ever started. -/
def Accepted.ResumesUnstarted (p : Program) (a : Accepted) : Prop :=
  a.event.kind = .resume ∧ a.before.actions = 0 ∧
  a.event.elapsedMillis ≤ p.spec.limits.activeSeconds*1000

/-- The phases in which a run that has started is at work. -/
def Working (s : State) : Prop :=
  s.phase = .observing ∨ s.phase = .awaitingApproval ∨ s.phase = .acting ∨ s.phase = .postAction ∨
    (s.phase = .paused ∧ s.actions ≠ 0)

/-- The present step is one that is carried out. -/
def AtLiveStep (p : Program) (s : State) : Prop :=
  ∃ step, p.spec.steps[s.stepIndex]? = some step ∧ step.kind ≠ .conclude

/-- What a run has charged tells whether it was started. -/
structure Charged (p : Program) (hist : List Accepted) (s : State) : Prop where
  charged : s.terminal = true ∨ 0 ≤ s.actions
  ready : s.phase = .ready → s.actions = 0
  begun : (∃ a ∈ hist, a.Starts p) → s.terminal = true ∨ 1 ≤ s.actions

/-- A run that is at work was started, and is at a step that is carried out. -/
def Begun (p : Program) (hist : List Accepted) (s : State) : Prop :=
  Working s → (∃ a ∈ hist, a.Starts p) ∧ AtLiveStep p s

section
variable {p : Program} {s t : State} {step : Step} {event : Event} {inputs : Table String Value}
  {cmds : List Command} {hist : List Accepted}

/-- An accepted start is found in the history after it, or was found before. -/
lemma starts_snoc {a : Accepted} (h : ∃ b ∈ hist ++ [a], b.Starts p) :
    (∃ b ∈ hist, b.Starts p) ∨ a.event.kind = .start := by
  obtain ⟨b,hb,hs⟩ := h
  rcases List.mem_append.mp hb with hb | hb
  · exact .inl ⟨b,hb,hs⟩
  · rw [List.mem_singleton.mp hb] at hs
    exact .inr hs.1

lemma starts_mono {a : Accepted} (h : ∃ b ∈ hist, b.Starts p) : ∃ b ∈ hist ++ [a], b.Starts p := by
  obtain ⟨b,hb,hs⟩ := h
  exact ⟨b,List.mem_append_left _ hb,hs⟩

lemma not_working_of_terminal (h : t.terminal = true) : ¬ Working t := by
  intro hw
  rcases hw with h' | h' | h' | h' | ⟨h',_⟩ <;> simp [State.terminal,h'] at h

/-- A move ends the run, or charges it by one at a start and by no less than nothing otherwise. -/
lemma Move.charges (h : Move p s step event inputs t cmds) : t.terminal = true ∨ (t.phase ≠ .ready ∧
    ((event.kind = .start ∧ t.actions = 1) ∨ (event.kind ≠ .start ∧ s.actions ≤ t.actions))) := by
  cases h with
  | halt phase => exact .inl (terminal_of_ended phase)
  | pause phase keeps _ _ _ kind => exact .inr ⟨by simp [phase],.inr ⟨kind.1,keeps.actions.ge⟩⟩
  | start kind => exact .inr ⟨by simp,.inl ⟨kind,rfl⟩⟩
  | startConclude => exact .inl (terminal_finishConclude _ _ _)
  | resume kind _ _ keeps phase =>
    refine .inr ⟨?_,.inr ⟨by simp [kind],keeps.actions.ge⟩⟩
    rw [phase]
    split_ifs <;> simp
  | again was phase keeps _ _ _ _ _ kind =>
    refine .inr ⟨?_,.inr ⟨?_,keeps.actions.ge⟩⟩
    · rw [phase]
      rcases was with h | h <;> simp [h]
    · rcases kind with h | h <;> simp [h]
  | recover kind _ _ _ _ _ _ _ phase keeps =>
    have hacts := keeps.actions
    dsimp only at hacts
    exact .inr ⟨by simp [phase],.inr ⟨by simp [kind],by omega⟩⟩
  | enter kind _ _ _ _ _ _ _ _ phase keeps =>
    have hacts := keeps.actions
    dsimp only at hacts
    exact .inr ⟨by simp [phase],.inr ⟨by simp [kind],by omega⟩⟩
  | conclude => exact .inl (terminal_finishConclude _ _ _)
  | complete _ _ _ _ _ _ phase => exact .inl (by simp [State.terminal,phase])
  | ask kind _ _ _ phase keeps =>
    exact .inr ⟨by simp [phase],.inr ⟨by simp [kind],keeps.actions.ge⟩⟩
  | act kind _ _ _ phase keeps =>
    exact .inr ⟨by simp [phase],.inr ⟨by simp [kind],keeps.actions.ge⟩⟩
  | approve kind _ _ phase keeps =>
    exact .inr ⟨by simp [phase],.inr ⟨by simp [kind],keeps.actions.ge⟩⟩
  | recovered kind _ _ _ phase keeps =>
    exact .inr ⟨by simp [phase],.inr ⟨by simp [kind],keeps.actions.ge⟩⟩
  | delivered kind _ _ _ phase keeps =>
    exact .inr ⟨by simp [phase],.inr ⟨by simp [kind],keeps.actions.ge⟩⟩
  | refused kind _ _ phase _ _ charge charged keeps =>
    have hacts := keeps.actions
    dsimp only at hacts
    exact .inr ⟨by simp [phase],.inr ⟨by simp [kind],by omega⟩⟩
  | retried kind _ _ phase _ _ _ _ keeps =>
    have hacts := keeps.actions
    dsimp only at hacts
    exact .inr ⟨by simp [phase],.inr ⟨by simp [kind],by omega⟩⟩
  | withdraw kind _ _ phase keeps =>
    exact .inr ⟨by simp [phase],.inr ⟨by simp [kind],keeps.actions.ge⟩⟩

lemma Charged.after (hs : Charged p hist s) (h : Stepped p s event inputs t cmds) :
    Charged p (hist ++ [⟨s,event,t,cmds⟩]) t := by
  cases h with
  | fence kind after none =>
    subst after
    refine ⟨hs.charged,hs.ready,?_⟩
    intro hb
    rcases starts_snoc hb with hb | hb
    · exact hs.begun hb
    · change event.kind = .start at hb
      rw [kind] at hb
      cases hb
  | live kind step nonterminal here move _ =>
    have hlive : ¬ s.terminal = true := by simp [nonterminal]
    rcases move.charges with hend | ⟨hready,hcharge⟩
    · refine ⟨.inl hend,?_,fun _ => .inl hend⟩
      intro hr
      simp [State.terminal,hr] at hend
    · have hnonneg : 0 ≤ s.actions := hs.charged.resolve_left hlive
      refine ⟨.inr ?_,fun hr => (hready hr).elim,?_⟩
      · rcases hcharge with ⟨_,h1⟩ | ⟨_,h1⟩
        · omega
        · exact hnonneg.trans h1
      · intro hb
        right
        rcases hcharge with ⟨_,h1⟩ | ⟨hne,h1⟩
        · omega
        · rcases starts_snoc hb with hb | hb
          · have := (hs.begun hb).resolve_left hlive
            exact this.trans h1
          · exact (hne hb).elim

theorem Run.charged {start : State} (hzero : start.actions = 0)
    (run : Run p start hist s) : Charged p hist s := by
  induction run with
  | nil => exact ⟨.inr hzero.ge,fun _ => hzero,by simp⟩
  | snoc _ h ih => exact ih.after (reduce_stepped h)

/-- A resume in time asks for an observation. -/
lemma Move.resume_commands (h : Move p s step event inputs t cmds) (kind : event.kind = .resume)
    (intime : ¬ Late p s) : ∃ c, c ∈ cmds := by
  cases h with
  | resume _ _ _ _ _ _ _ c => exact ⟨c,List.mem_cons_self⟩
  | halt _ _ _ _ _ _ hk =>
    rcases hk with hlate | hk
    · exact (intime hlate).elim
    · exact (hk.2.1 kind).elim
  | pause _ _ _ _ _ hk => exact (hk.2.1 kind).elim
  | again _ _ _ _ _ c => exact ⟨c,List.mem_cons_self⟩
  | start hk | startConclude hk | recover hk | enter hk | conclude hk | complete hk | ask hk
      | act hk
  | approve hk | recovered hk | delivered hk | refused hk | retried hk | withdraw hk =>
    rw [kind] at hk
    cases hk

/-- How a run comes to be at work: it is started at a live step, or was at work before, or is
resumed though nothing was charged. -/
lemma Move.working_cases (h : Move p s step event inputs t cmds)
    (hzero : s.phase = .ready → s.actions = 0)
    (hw : Working t) :
    (event.kind = .start ∧ p.validateInputs inputs = .ok () ∧ t.stepIndex = s.stepIndex ∧
      step.kind ≠ .conclude) ∨
    (Working s ∧ (t.stepIndex = s.stepIndex ∨ AtLiveStep p t)) ∨
    (event.kind = .resume ∧ s.actions = 0 ∧ cmds ≠ []) := by
  cases h with
  | halt phase =>
    exact (not_working_of_terminal (terminal_of_ended phase) hw).elim
  | startConclude | conclude =>
    exact (not_working_of_terminal (terminal_finishConclude _ _ _) hw).elim
  | complete _ _ _ _ _ _ phase =>
    exact (not_working_of_terminal (by simp [State.terminal,phase]) hw).elim
  | pause phase keeps rests =>
    have hacts : s.actions ≠ 0 := by
      rw [← keeps.actions]
      simpa [Working,phase] using hw
    refine .inr (.inl ⟨?_,.inl keeps.stepIndex⟩)
    cases rests with
    | after h => exact .inr (.inr (.inr (.inl h)))
    | before h => exact h.elim .inl (fun h => .inr (.inl h))
    | still h => exact .inr (.inr (.inr (.inr ⟨h,hacts⟩)))
    | unstarted h => exact (hacts (hzero h)).elim
  | start kind _ valid live => exact .inl ⟨kind,valid,rfl,live⟩
  | resume kind paused _ keeps =>
    by_cases hacts : s.actions = 0
    · exact .inr (.inr ⟨kind,hacts,by simp⟩)
    · exact .inr (.inl ⟨.inr (.inr (.inr (.inr ⟨paused,hacts⟩))),.inl keeps.stepIndex⟩)
  | again was _ keeps =>
    exact .inr (.inl ⟨was.elim .inl (fun h => .inr (.inr (.inr (.inl h)))),.inl keeps.stepIndex⟩)
  | recover _ was _ _ _ _ _ _ _ keeps => exact .inr (.inl ⟨.inl was,.inl keeps.stepIndex⟩)
  | enter _ was _ _ _ into there live _ _ keeps =>
    refine .inr (.inl ⟨was.elim .inl (fun h => .inr (.inr (.inr (.inl h)))),.inr ⟨into,?_,live⟩⟩)
    rw [keeps.stepIndex]
    exact there
  | ask _ was _ _ _ keeps => exact .inr (.inl ⟨.inl was,.inl keeps.stepIndex⟩)
  | act _ was _ _ _ keeps => exact .inr (.inl ⟨.inl was,.inl keeps.stepIndex⟩)
  | approve _ was _ _ keeps => exact .inr (.inl ⟨.inr (.inl was),.inl keeps.stepIndex⟩)
  | recovered _ _ was _ _ keeps => exact .inr (.inl ⟨.inr (.inr (.inl was)),.inl keeps.stepIndex⟩)
  | delivered _ _ was _ _ keeps => exact .inr (.inl ⟨.inr (.inr (.inl was)),.inl keeps.stepIndex⟩)
  | refused _ _ was _ _ _ _ _ keeps =>
    exact .inr (.inl ⟨.inr (.inr (.inl was)),.inl keeps.stepIndex⟩)
  | retried _ _ was _ _ _ _ _ keeps =>
    exact .inr (.inl ⟨.inr (.inr (.inl was)),.inl keeps.stepIndex⟩)
  | withdraw _ was _ _ keeps => exact .inr (.inl ⟨.inr (.inr (.inl was)),.inl keeps.stepIndex⟩)

lemma Begun.after (hc : Charged p hist s) (hs : Begun p hist s)
    (hreduce : reduce p s event inputs = .ok (t,cmds))
    (hres : ¬ Accepted.ResumesUnstarted p ⟨s,event,t,cmds⟩) :
    Begun p (hist ++ [⟨s,event,t,cmds⟩]) t := by
  intro hw
  cases reduce_stepped hreduce with
  | fence kind after none =>
    subst after
    obtain ⟨hstarts,hat⟩ := hs hw
    exact ⟨starts_mono hstarts,hat⟩
  | live kind step nonterminal here move late =>
    rcases move.working_cases hc.ready hw with ⟨hk,hvalid,hindex,hlive⟩ | ⟨hwork,hat⟩
      | ⟨hk,hzero,hcmds⟩
    · refine ⟨⟨_,List.mem_append_right _ List.mem_cons_self,hk,inputs,hvalid,hreduce⟩,step,?_,hlive⟩
      rw [hindex]
      exact here
    · obtain ⟨hstarts,hlive⟩ := hs hwork
      refine ⟨starts_mono hstarts,?_⟩
      rcases hat with hat | hat
      · unfold AtLiveStep
        rw [hat]
        exact hlive
      · exact hat
    · refine (hres ⟨hk,hzero,?_⟩).elim
      by_contra hlate
      exact hcmds (late (not_le.mp hlate))

theorem Run.begun {start : State} (hstart : start.phase = .ready) (hzero : start.actions = 0)
    (run : Run p start hist s) (hres : ∀ a ∈ hist, ¬ a.ResumesUnstarted p) : Begun p hist s := by
  induction run with
  | nil =>
    intro hw
    simp [Working,hstart] at hw
  | snoc run h ih =>
    have hpre := ih (fun a ha => hres a (List.mem_append_left _ ha))
    exact hpre.after (run.charged hzero) h (hres _ (List.mem_append_right _ List.mem_cons_self))

end

/-- Every command of a run comes with or after a validated start and goes to a step that does not
conclude, exactly when no resume is taken in time where nothing was started. -/
theorem startedFirst_iff {p : Program} {runID sessionID : String} {epoch : UInt64} {start s : State}
    {hist : List Accepted} (hnew : newState p runID sessionID epoch = .ok start)
    (run : Run p start hist s) :
    StartedFirst p hist ↔ ∀ a ∈ hist, ¬ a.ResumesUnstarted p := by
  obtain ⟨hready,hzero⟩ := newState_ready hnew
  constructor
  · intro hfirst a ha hres
    obtain ⟨pre,post,rfl⟩ := List.append_of_mem ha
    obtain ⟨hpre,inputs,hreduce⟩ := run.split
    have hcharged := hpre.charged hzero
    obtain ⟨hkind,hacts,hintime⟩ := hres
    cases reduce_stepped hreduce with
    | fence kind =>
      rw [hkind] at kind
      cases kind
    | live kind step nonterminal here move late =>
      obtain ⟨c,hc⟩ := move.resume_commands hkind (not_lt.mpr hintime)
      obtain ⟨hstarts,-⟩ := hfirst pre a post rfl c hc
      rcases starts_snoc hstarts with hstarts | hstarts
      · rcases hcharged.begun hstarts with h | h
        · rw [nonterminal] at h
          cases h
        · omega
      · rw [hkind] at hstarts
        cases hstarts
  · intro hres pre a post hsplit c hc
    subst hsplit
    have hpre : Run p start (pre ++ [a]) a.after := by
      obtain ⟨hpre,inputs,hreduce⟩ := run.split
      exact hpre.snoc hreduce
    have hbegun := hpre.begun hready hzero (by
      intro b hb
      apply hres b
      rw [List.append_cons]
      exact List.mem_append_left _ hb)
    obtain ⟨_,inputs,hreduce⟩ := run.split
    cases reduce_stepped hreduce with
    | fence kind after none =>
      rw [none] at hc
      cases hc
    | live kind step nonterminal here move late =>
      obtain ⟨hphase,step',hat,hid⟩ := move.commands_at here hc
      have hwork : Working a.after := by
        rcases hphase with h | h | h | h
        · exact .inl h
        · exact .inr (.inl h)
        · exact .inr (.inr (.inl h))
        · exact .inr (.inr (.inr (.inl h)))
      obtain ⟨hstarts,step'',hat',hlive⟩ := hbegun hwork
      rw [hat] at hat'
      cases hat'
      exact ⟨hstarts,step',hat,hid,hlive⟩

/-- A start, and the events of a pause and a resume before any start. -/
def startEvents : List Event := [⟨1,"r","s",1,0,10,.start,"",.zero,.none,"",""⟩]

def resumeEvents : List Event :=
  [⟨1,"r","s",1,2,10,.pause,"",.zero,.none,"",""⟩,⟨2,"r","s",2,3,20,.resume,"",.zero,.none,"",""⟩]

theorem startedFirst_iff_startEvents : ∃ p start hist s,
    compile (fun _ => .ok ()) "digest" (simpleArtifact [pressStep .change,checkStep] []) = .ok p ∧
    newState p "r" "s" 1 = .ok start ∧ Run p start hist s ∧ hist.flatMap Accepted.commands ≠ [] ∧
    (StartedFirst p hist ↔ ∀ a ∈ hist, ¬ a.ResumesUnstarted p) := by
  have heval : (replayed (simpleArtifact [pressStep .change,checkStep] []) startEvents).map
    (fun r =>
      (r.2.2.1.flatMap Accepted.commands).length) = some 1 := by decide
  obtain ⟨⟨p,start,hist,s⟩,hr,hlen⟩ := Option.map_eq_some_iff.mp heval
  obtain ⟨hp,hnew,run⟩ := replayed_run hr
  refine ⟨p,start,hist,s,hp,hnew,run,?_,startedFirst_iff hnew run⟩
  intro hnil
  simp [hnil] at hlen

/-- A run that is paused and resumed before any start observes its first step. -/
theorem resume_unstarted_observes : ∃ p start hist s,
    compile (fun _ => .ok ()) "digest" (simpleArtifact [pressStep .change,checkStep] []) = .ok p ∧
    newState p "r" "s" 1 = .ok start ∧ Run p start hist s ∧ ¬ StartedFirst p hist := by
  have heval : (replayed (simpleArtifact [pressStep .change,checkStep] []) resumeEvents).map
    (fun r =>
      r.2.2.1.map (fun a => (a.event.kind,a.commands.length))) = some [(.pause,0),(.resume,1)] := by
    decide
  obtain ⟨⟨p,start,hist,s⟩,hr,hkinds⟩ := Option.map_eq_some_iff.mp heval
  obtain ⟨hp,hnew,run⟩ := replayed_run hr
  refine ⟨p,start,hist,s,hp,hnew,run,?_⟩
  intro hfirst
  have hnone : ∀ b ∈ hist, b.event.kind ≠ .start := by
    intro b hb
    have hmem : (b.event.kind,b.commands.length) ∈ [(EventKind.pause,0),(EventKind.resume,1)] := by
      rw [← hkinds]
      exact List.mem_map_of_mem hb
    intro hk
    rw [hk] at hmem
    simp at hmem
  obtain ⟨a1,rest,rfl,-,hrest⟩ := List.map_eq_cons_iff.mp hkinds
  obtain ⟨a2,rest,rfl,h2,hnil⟩ := List.map_eq_cons_iff.mp hrest
  obtain rfl := List.map_eq_nil_iff.mp hnil
  obtain ⟨c,hc⟩ := List.length_pos_iff_exists_mem.mp (by
    rw [(Prod.mk.inj h2).2]
    exact Nat.one_pos)
  obtain ⟨⟨b,hb,hstarts⟩,-⟩ := hfirst [a1] a2 [] rfl c hc
  exact hnone b hb hstarts.1

end Manvi.Workflow
