import Manvi.Agent.Loop

/-! What each phase of a turn does to the parts of the driver that its guarantees are about. -/
namespace Manvi.Agent
open Manvi.Encoding Manvi.LLM Manvi.Session Manvi.Program

/-- Records that shape the history, delimit turns and steps, or tell of a retry. -/
def LogEvent.isMark : LogEvent → Bool
  | .systemPrompt _ => false
  | .toolResultCompacted _ => false
  | .note (.nullResponseRetried _ _) => true
  | .note _ => false
  | _ => true

/-- The part of a driver that its guarantees are about. -/
structure View where
  marks : List LogEvent
  openCalls : List CallID
  turnOpen : Bool
  stepOpen : Bool
  spent : StepEndData
  nullRetries : ℕ
  requests : ℕ
  usage : Usage
  costNanoUSD : ℤ
  unpricedSteps : ℕ
  budgetSpent : ℕ
  bounces : ℕ

def View.mark (v : View) (e : LogEvent) : View := { v with marks := v.marks ++ [e] }

/-- The step is closed in the log. -/
def View.ended (v : View) : View :=
  { v with marks := v.marks ++ [.stepEnd v.spent], spent := StepEndData.zero, stepOpen := false }

/-- A step's charge as the outcome takes it. -/
def View.charged (v : View) (charge : ℤ × Bool) : View :=
  if charge.2 then { v with costNanoUSD := v.costNanoUSD+charge.1 } else { v with
    unpricedSteps := v.unpricedSteps+1 }

/-- A charge that an outcome takes: one that does not overflow it, or none. -/
def Chargeable (cost : ℤ) (charge : ℤ × Bool) : Prop :=
  (charge.2 = true ∧ 0 ≤ charge.1 ∧ cost+charge.1 ≤ maxInt64) ∨ charge = (0,false)

/-- A response as the outcome and the open step take it. -/
def View.absorbed (v : View) (usage : Usage) (charge : ℤ × Bool) : View :=
  { v.charged charge with usage := v.usage.add usage, spent := ⟨usage,charge.1,charge.2,false⟩ }

/-- The log refuses an append. -/
def World.Refuses (w : World) : Prop := ∃ n, w.accepts n = false

namespace Loop

/-- What is seen of a driver whose log held some records before. -/
def view (held : List LogEvent) (l : Loop) : View :=
  ⟨(l.log.drop held.length).filter LogEvent.isMark,l.openCalls,l.turnOpen,l.stepOpen,l.spent,
    l.nullRetries,
    l.requests,l.out.usage,l.out.costNanoUSD,l.out.unpricedSteps,l.out.budgetSpent,l.out.bounces⟩

/-- The log still holds those records, and what is seen has the property. -/
def Over (held : List LogEvent) (P : View → Prop) : Loop → Prop :=
  fun l => held <+: l.log ∧ P (l.view held)

/-- From what is seen before to what is seen after a part of a turn, or when the turn is left in
it. -/
abbrev Phase {α : Type} (held : List LogEvent) (P : View → Prop) (x : Step α) (Q : α → View → Prop)
    (R : Exit → View → Prop) : Prop :=
  Triple (Over held P) x (fun a => Over held (Q a)) (fun e => Over held (R e))

/-! Rules, for any properties of the view. -/

section
variable {w : World} {cfg : Config} {held : List LogEvent} {P : View → Prop}
    {R : Exit → View → Prop}

lemma modify_rule {Q : View → Prop} {g : Loop → Loop} {f : View → View}
    (hg : ∀ l, (g l).log = l.log ∧ view held (g l) = f (view held l)) (h : ∀ v, P v → Q (f v)) :
    Phase held P (Prog.modify g) (fun _ => Q) R := by
  apply Triple.modify
  intro l hl
  obtain ⟨hlog,hview⟩ := hg l
  refine ⟨?_,?_⟩
  · rw [hlog]
    exact hl.1
  · rw [hview]
    exact h _ hl.2

/-- An answer is one that the outside gives at some time. -/
lemma answer_rule {α : Type} {f : ℕ → α} :
    Phase held P (ask f) (fun a v => P v ∧ ∃ n, f n = a) R := by
  intro l hl
  refine ⟨?_,?_⟩
  · intro a l' he
    cases he
    exact ⟨hl.1,hl.2,l.tick,rfl⟩
  · intro e l' he
    cases he

lemma ask_rule {α : Type} {f : ℕ → α} : Phase held P (ask f) (fun _ => P) R :=
  answer_rule.weaken (fun _ hl => hl) (fun _ _ hl => ⟨hl.1,hl.2.1⟩) (fun _ _ hl => hl)

/-- The log grows by an event. -/
lemma record_rule {Q : View → Prop} {e : LogEvent} {f : View → View}
    (hf : ∀ v : View, f v = { v with marks := v.marks ++ [e].filter LogEvent.isMark })
    (h : ∀ v, P v → Q (f v)) :
    Phase held P (Prog.modify (fun l => { l with log := l.log ++ [e] })) (fun _ => Q) R := by
  apply Triple.modify
  rintro l ⟨hlog,hl⟩
  refine ⟨hlog.trans (List.prefix_append _ _),?_⟩
  have hview : view held { l with log := l.log ++ [e] } = f (view held l) := by
    rw [hf]
    simp only [view,List.drop_append_of_le_length hlog.length_le,List.filter_append]
  change Q (view held { l with log := l.log ++ [e] })
  rw [hview]
  exact h _ hl

/-- Recording an event that is seen. -/
lemma append_rule {Q : View → Prop} {e : LogEvent} (he : e.isMark = true)
    (hok : ∀ v, P v → Q (v.mark e))
    (hR : w.Refuses → ∀ v, P v → R .failed v) : Phase held P (append w e) (fun _ => Q) R := by
  refine Triple.bind answer_rule (fun accepted => Triple.ite (fun _ => ?_) (fun hrefused => ?_))
  · refine record_rule (f := fun v => v.mark e) ?_ (fun v hv => hok v hv.1)
    intro v
    rw [List.filter_singleton,he]
    rfl
  · rw [Bool.not_eq_true] at hrefused
    subst hrefused
    exact Triple.exit (fun l hl => ⟨hl.1,hR hl.2.2 _ hl.2.1⟩)

/-- Recording an event that is not. -/
lemma note_rule {e : LogEvent} (he : e.isMark = false) (hR : ∀ v, P v → R .failed v) :
    Phase held P (append w e) (fun _ => P) R := by
  refine Triple.bind ask_rule (fun accepted => Triple.ite (fun _ => ?_) (fun _ => ?_))
  · refine record_rule (f := id) ?_ (fun _ hv => hv)
    intro v
    rw [List.filter_singleton,he]
    simp
  · exact Triple.exit (fun l hl => ⟨hl.1,hR _ hl.2⟩)

/-- A property that every way out allows. -/
structure Leaves (P : View → Prop) (R : Exit → View → Prop) : Prop where
  failed : ∀ v, P v → R .failed v
  panicked : ∀ v, P v → R .panicked v

lemma Leaves.exit (h : Leaves P R) (f : Failure) {v : View} (hv : P v) : R f.exit v := by
  cases f with
  | failed => exact h.failed v hv
  | panicked => exact h.panicked v hv

lemma heed_rule (a : Answer) (h : Leaves P R) : Phase held P (heed a) (fun _ => P) R := by
  cases a with
  | ok => exact Triple.pure (fun _ hl => hl)
  | failed => exact Triple.exit (fun l hl => ⟨hl.1,h.failed _ hl.2⟩)
  | panicked => exact Triple.exit (fun l hl => ⟨hl.1,h.panicked _ hl.2⟩)

lemma listen_rule (f : ℕ → Answer) (h : Leaves P R) :
    Phase held P (ask f >>= heed) (fun _ => P) R :=
  Triple.bind ask_rule (fun a => heed_rule a h)

lemma setOut_rule {Q : View → Prop} {f : Outcome → Outcome} {g : View → View}
    (hg : ∀ l, view held { l with out := f l.out } = g (view held l)) (h : ∀ v, P v → Q (g v)) :
    Phase held P (setOut f) (fun _ => Q) R :=
  modify_rule (fun l => ⟨rfl,hg l⟩) h

lemma read_rule {α : Type} (f : Loop → α) : Phase held P (Prog.read f) (fun _ => P) R :=
  Triple.read (fun _ hl => hl)

/-- Read a part of the view. -/
lemma view_rule {α : Type} {f : Loop → α} (g : View → α) (hg : ∀ l, f l = g (l.view held)) :
    Phase held P (Prog.read f) (fun a => (fun v => P v ∧ g v = a)) R :=
  Triple.read (fun l hl => ⟨hl.1,hl.2,(hg l).symm⟩)

lemma endStep_rule {Q : View → Prop} (hok : ∀ v, P v → Q v.ended)
    (hR : w.Refuses → ∀ v, P v → R .failed { v with spent := StepEndData.zero }) :
    Phase held P (endStep w) (fun _ => Q) R := by
  refine Triple.bind (view_rule View.spent (fun _ => rfl)) (fun spent => ?_)
  refine Triple.bind (modify_rule (Q := fun v => ∃ v', P v' ∧ v'.spent = spent ∧
    v = { v' with spent := StepEndData.zero })
    (f := fun v => { v with spent := StepEndData.zero }) (fun _ => ⟨rfl,rfl⟩) ?_) (fun _ => ?_)
  · rintro v ⟨hv,hspent⟩
    exact ⟨v,hv,hspent,rfl⟩
  refine Triple.bind (append_rule (Q := fun v => ∃ v', P v' ∧
    v = { v' with marks := v'.marks ++ [.stepEnd v'.spent], spent := StepEndData.zero }) rfl ?_ ?_)
    (fun _ => ?_)
  · rintro v ⟨v',hv,rfl,rfl⟩
    exact ⟨v',hv,rfl⟩
  · rintro hrefuses v ⟨v',hv,_,rfl⟩
    exact hR hrefuses v' hv
  · refine modify_rule (f := fun v => { v with stepOpen := false }) (fun _ => ⟨rfl,rfl⟩) ?_
    rintro v ⟨v',hv,rfl⟩
    exact hok v' hv

lemma endTurn_rule {Q : View → Prop} (hok : ∀ v, P v → Q { v.mark .turnEnd with turnOpen := false })
    (hR : w.Refuses → ∀ v, P v → R .failed v) : Phase held P (endTurn w) (fun _ => Q) R := by
  refine Triple.bind (append_rule (Q := fun v => ∃ v', P v' ∧ v = v'.mark .turnEnd) rfl ?_ hR)
    (fun _ => ?_)
  · exact fun v hv => ⟨v,hv,rfl⟩
  · refine modify_rule (f := fun v => { v with turnOpen := false }) (fun _ => ⟨rfl,rfl⟩) ?_
    rintro v ⟨v',hv,rfl⟩
    exact hok v' hv

lemma openTurn_rule {Q : View → Prop} {prompt : Message}
    (hok : ∀ v, P v → Q { v with
      marks := v.marks ++ [.turnStart] ++ [.userMessage prompt ""], openCalls := [], turnOpen :=
        true })
    (hrefused : ∀ v, P v → R .failed { v with openCalls := [] })
    (hopened : Leaves (fun v => ∃ v', P v' ∧ v = { v' with
      marks := v'.marks ++ [.turnStart], openCalls := [], turnOpen := true }) R) :
    Phase held P (openTurn w cfg prompt) (fun _ => Q) R := by
  refine Triple.bind (modify_rule (Q := fun v => ∃ v', P v' ∧ v = { v' with openCalls := [] })
    (f := fun v => { v with openCalls := [] }) (fun _ => ⟨rfl,rfl⟩) (fun v hv => ⟨v,hv,rfl⟩))
    (fun _ => ?_)
  refine Triple.bind (append_rule (Q := fun v => ∃ v', P v' ∧
    v = { v' with marks := v'.marks ++ [.turnStart], openCalls := [] }) rfl ?_ ?_) (fun _ => ?_)
  · rintro v ⟨v',hv,rfl⟩
    exact ⟨v',hv,rfl⟩
  · rintro _ v ⟨v',hv,rfl⟩
    exact hrefused v' hv
  refine Triple.bind (modify_rule (Q := fun v => ∃ v', P v' ∧ v = { v' with
    marks := v'.marks ++ [.turnStart], openCalls := [], turnOpen := true })
    (f := fun v => { v with turnOpen := true }) (fun _ => ⟨rfl,rfl⟩) ?_) (fun _ => ?_)
  · rintro v ⟨v',hv,rfl⟩
    exact ⟨v',hv,rfl⟩
  refine Triple.bind ask_rule (fun starting => Triple.bind (heed_rule starting hopened)
    (fun _ => ?_))
  refine Triple.bind (read_rule _) (fun held => ?_)
  refine Triple.bind (Triple.when (fun _ => note_rule rfl hopened.failed)) (fun _ => ?_)
  refine Triple.bind (append_rule (Q := Q) rfl ?_ (fun _ => hopened.failed)) (fun _ => ?_)
  · rintro v ⟨v',hv,rfl⟩
    exact hok v' hv
  · exact modify_rule (f := id) (fun _ => ⟨rfl,rfl⟩) (fun _ hv => hv)

lemma enterStep_rule {Q : View → Prop}
    (hok : ∀ v, P v → Q { v.mark .stepStart with
      spent := { StepEndData.zero with noResponse := true }, stepOpen := true })
    (h : Leaves P R) : Phase held P (enterStep w) (fun _ => Q) R := by
  refine Triple.bind ask_rule (fun derived => Triple.bind (heed_rule derived h) (fun _ => ?_))
  refine Triple.bind ask_rule (fun pre => ?_)
  refine Triple.bind (Triple.each (fun c => note_rule rfl h.failed) pre.compactions) (fun _ => ?_)
  refine Triple.bind (Triple.when (fun _ => ?_)) (fun _ => ?_)
  · refine Triple.bind (modify_rule (f := id) (fun _ => ⟨rfl,rfl⟩) (fun _ hv => hv)) (fun _ =>
      note_rule rfl h.failed)
  refine Triple.bind (heed_rule pre.ends h) (fun _ => ?_)
  refine Triple.bind (append_rule (Q := fun v => ∃ v', P v' ∧ v = v'.mark .stepStart) rfl ?_
    (fun _ => h.failed)) (fun _ => ?_)
  · exact fun v hv => ⟨v,hv,rfl⟩
  · refine modify_rule (f := fun v => { v with
      spent := { StepEndData.zero with noResponse := true }, stepOpen :=
        true }) (fun _ => ⟨rfl,rfl⟩) ?_
    rintro v ⟨v',hv,rfl⟩
    exact hok v' hv

lemma assembleRequest_rule (h : Leaves P R) :
    Phase held P (assembleRequest w) (fun _ => P) R := by
  refine Triple.bind ask_rule (fun drops => ?_)
  refine Triple.bind (Triple.when (fun _ => note_rule rfl h.failed)) (fun _ => ?_)
  exact listen_rule w.assembles h

lemma streamResponse_rule {Q : Response → View → Prop}
    (hok : ∀ v response, P v → Q response { v with
      marks := v.marks ++ [.assistantMessage response.message], requests := v.requests+1
      openCalls := (toolCalls response.message).map ToolCall.id })
    (h : Leaves (fun v => ∃ v', P v' ∧ v = { v' with requests := v'.requests+1 }) R) :
    Phase held P (streamResponse w) (fun response => (Q response)) R := by
  refine Triple.bind (modify_rule (Q := fun v => ∃ v', P v' ∧
    v = { v' with requests := v'.requests+1 })
    (f := fun v => { v with requests := v.requests+1 }) (fun _ => ⟨rfl,rfl⟩) (fun v hv =>
      ⟨v,hv,rfl⟩)) (fun _ => ?_)
  refine Triple.bind ask_rule (fun stream => ?_)
  refine Triple.bind (Triple.each (fun _ => note_rule rfl h.failed) _) (fun _ => ?_)
  cases stream.ends with
  | error e => exact Triple.exit (fun l hl => ⟨hl.1,h.exit e hl.2⟩)
  | ok response =>
    refine Triple.bind (append_rule (Q := fun v => ∃ v', P v' ∧ v = { v' with
      marks := v'.marks ++ [.assistantMessage response.message], requests := v'.requests+1 }) rfl ?_
      (fun _ => h.failed))
      (fun _ => ?_)
    · rintro v ⟨v',hv,rfl⟩
      exact ⟨v',hv,rfl⟩
    refine Triple.bind (modify_rule (Q := Q response)
      (f := fun v => { v with openCalls := (toolCalls response.message).map ToolCall.id }) (fun _ =>
        ⟨rfl,rfl⟩) ?_) (fun _ => ?_)
    · rintro v ⟨v',hv,rfl⟩
      exact hok v' response hv
    · exact Triple.pure (fun _ hl => hl)

lemma price_rule {Q : ℤ × Bool → View → Prop} {usage : Usage}
    (hok : ∀ v charge, P v → Chargeable v.costNanoUSD charge → Q charge (v.charged charge))
    (hpanic : ∀ v, P v → R .panicked v) :
    Phase held P (price w cfg usage) (fun charge => (Q charge)) R := by
  have hunpriced : Phase held P (do
      setOut (fun out => { out with unpricedSteps := out.unpricedSteps+1 })
      return (0,false)) (fun charge => (Q charge)) R := by
    refine Triple.bind (setOut_rule (Q := Q (0,false))
      (g := fun v => { v with unpricedSteps := v.unpricedSteps+1 }) (fun _ => rfl) ?_) (fun _ => ?_)
    · exact fun v hv => hok v (0,false) hv (.inr rfl)
    · exact Triple.pure (fun _ hl => hl)
  refine Triple.ite (fun _ => hunpriced) (fun _ => Triple.bind ask_rule (fun charges => ?_))
  cases charges usage with
  | error e =>
    cases e with
    | failed => exact hunpriced
    | panicked => exact Triple.exit (fun l hl => ⟨hl.1,hpanic _ hl.2⟩)
  | ok charge =>
    refine Triple.bind (view_rule View.costNanoUSD (fun _ => rfl)) (fun cost => Triple.ite ?_ ?_)
    · intro _
      exact hunpriced.weaken (fun _ hl => ⟨hl.1,hl.2.1⟩) (fun _ _ hl => hl) (fun _ _ hl => hl)
    · intro hfits
      refine Triple.bind (setOut_rule (Q := Q (charge,true))
        (g := fun v => { v with costNanoUSD := v.costNanoUSD+charge }) (fun _ =>
          rfl) ?_) (fun _ => ?_)
      · rintro v ⟨hv,rfl⟩
        rw [not_or] at hfits
        exact hok v (charge,true) hv (.inl ⟨rfl,by omega,by omega⟩)
      · exact Triple.pure (fun _ hl => hl)

lemma absorbResponse_rule {Q : View → Prop} {step : ℕ} {response : Response}
    (hok : ∀ v charge, P v → Chargeable v.costNanoUSD charge → Q (v.absorbed response.usage charge))
    (hR : ∀ v, Q v → R .failed v)
    (hpanic : ∀ v, P v → R .panicked { v with usage := v.usage.add response.usage }) :
    Phase held P (absorbResponse w cfg step response) (fun _ => Q) R := by
  refine Triple.bind (setOut_rule (Q := fun v => ∃ v', P v' ∧
    v = { v' with usage := v'.usage.add response.usage })
    (g := fun v => { v with usage := v.usage.add response.usage }) (fun _ => rfl) (fun v hv =>
      ⟨v,hv,rfl⟩)) (fun _ => ?_)
  refine Triple.bind (price_rule (Q := fun charge v => ∃ v', P v' ∧
    Chargeable v'.costNanoUSD charge ∧
    v = { v'.charged charge with usage := v'.usage.add response.usage }) ?_ ?_) (fun charge => ?_)
  · rintro v charge ⟨v',hv,rfl⟩ hcharge
    refine ⟨v',hv,hcharge,?_⟩
    unfold View.charged
    split_ifs <;> rfl
  · rintro v ⟨v',hv,rfl⟩
    exact hpanic v' hv
  refine Triple.bind (modify_rule (Q := Q)
    (f := fun v => { v with spent := ⟨response.usage,charge.1,charge.2,false⟩ }) (fun _ =>
      ⟨rfl,rfl⟩) ?_) (fun _ => ?_)
  · rintro v ⟨v',hv,hcharge,rfl⟩
    exact hok v' charge hv hcharge
  refine Triple.bind (Triple.when (fun _ => note_rule rfl hR)) (fun _ => Triple.when (fun _ => ?_))
  exact setOut_rule (g := id) (fun _ => rfl) (fun _ hv => hv)

lemma retryNullResponse_rule {Q : View → Prop} {step attempt : ℕ}
    (hok : ∀ v, P v →
      Q { v.mark (.note (.nullResponseRetried step attempt)) with
        budgetSpent := v.budgetSpent+1 }.ended)
    (hR : ∀ v, P v → R .failed { v with budgetSpent := v.budgetSpent+1 })
    (hR' : w.Refuses → ∀ v, P v →
      R .failed { v.mark (.note (.nullResponseRetried step attempt)) with
      budgetSpent := v.budgetSpent+1, spent := StepEndData.zero }) :
    Phase held P (retryNullResponse w step attempt) (fun _ => Q) R := by
  refine Triple.bind (setOut_rule (Q := fun v => ∃ v', P v' ∧
    v = { v' with budgetSpent := v'.budgetSpent+1 })
    (g := fun v => { v with budgetSpent := v.budgetSpent+1 }) (fun _ => rfl) (fun v hv =>
      ⟨v,hv,rfl⟩)) (fun _ => ?_)
  refine Triple.bind (append_rule (Q := fun v => ∃ v', P v' ∧
    v = { v'.mark (.note (.nullResponseRetried step attempt)) with
      budgetSpent := v'.budgetSpent+1 }) rfl ?_ ?_)
    (fun _ => endStep_rule ?_ ?_)
  · rintro v ⟨v',hv,rfl⟩
    exact ⟨v',hv,rfl⟩
  · rintro _ v ⟨v',hv,rfl⟩
    exact hR v' hv
  · rintro v ⟨v',hv,rfl⟩
    exact hok v' hv
  · rintro hrefuses v ⟨v',hv,rfl⟩
    exact hR' hrefuses v' hv

lemma observe_rule {call : ToolCall} {result : ToolRun} :
    Phase held P (observe cfg call result) (fun _ => P) R := by
  refine Triple.bind (read_rule _) (fun repeated => ?_)
  refine Triple.bind (modify_rule (f := id) (fun _ => ⟨rfl,rfl⟩) (fun _ hv => hv)) (fun _ => ?_)
  exact Triple.pure (fun _ hl => hl)

lemma recordGate_rule {call : ToolCall} {result : ToolRun} (hR : ∀ v, P v → R .failed v) :
    Phase held P (recordGate w call result) (fun _ => P) R := by
  have hnote : ∀ (f : Outcome → Outcome) (n : Note), (LogEvent.note n).isMark = false →
      (∀ l : Loop, view held { l with out := f l.out } = view held l) →
      Phase held P (do setOut f; append w (.note n)) (fun _ => P) R := by
    intro f n hn hf
    exact Triple.bind (setOut_rule (g := id) hf (fun _ hv => hv)) (fun _ => note_rule hn hR)
  refine Triple.ite (fun _ => hnote _ _ rfl (fun _ => rfl)) (fun _ =>
    Triple.ite (fun _ => hnote _ _ rfl (fun _ => rfl)) ?_)
  exact fun _ => Triple.ite (fun _ => hnote _ _ rfl (fun _ => rfl)) (fun _ =>
    Triple.pure (fun _ hl => hl))

/-- A view after the result of a call. -/
lemma recordCall_rule {Q : View → Prop} {call : ToolCall} {result : ToolRun}
    (hok : ∀ v, P v → Q { v with
      marks := v.marks ++ [.toolResult ⟨call.id,result.text,result.content,result.isError⟩]
      openCalls := v.openCalls.erase call.id })
    (hR : ∀ v, P v → R .failed v) :
    Phase held P (recordCall w call result) (fun _ => Q) R := by
  refine Triple.bind (recordGate_rule hR) (fun _ =>
    Triple.bind (Triple.when (fun _ => note_rule rfl hR)) (fun _ => ?_))
  refine Triple.bind (append_rule (Q := fun v => ∃ v', P v' ∧
    v = v'.mark (.toolResult ⟨call.id,result.text,result.content,result.isError⟩)) rfl (fun v hv =>
      ⟨v,hv,rfl⟩)
    (fun _ => hR))
    (fun _ => ?_)
  refine modify_rule (f := fun v => { v with openCalls := v.openCalls.erase call.id }) (fun _ =>
    ⟨rfl,rfl⟩) ?_
  rintro v ⟨v',hv,rfl⟩
  exact hok v' hv

/-- Running a call leaves the view alone. -/
lemma runCall_rule {tally : StepTally} {call : ToolCall} (hpanic : ∀ v, P v → R .panicked v) :
    Phase held P (runCall w cfg tally call) (fun _ => P) R := by
  refine Triple.bind (modify_rule (f := id) (fun _ => ⟨rfl,rfl⟩) (fun _ hv => hv)) (fun _ => ?_)
  refine Triple.bind (read_rule _) (fun times => Triple.bind (read_rule _) (fun stalled => ?_))
  refine Triple.bind ask_rule (fun allowed => Triple.ite (fun _ => Triple.pure (fun _ hl => hl))
    (fun _ => ?_))
  refine Triple.ite (fun _ => ?_) (fun _ => Triple.ite (fun _ => ?_) (fun _ => ?_))
  · refine Triple.bind (setOut_rule (g := id) (fun _ => rfl) (fun _ hv => hv)) (fun _ => ?_)
    exact Triple.pure (fun _ hl => hl)
  · refine Triple.bind (setOut_rule (g := id) (fun _ => rfl) (fun _ hv => hv)) (fun _ => ?_)
    refine Triple.bind (modify_rule (f := id) (fun _ => ⟨rfl,rfl⟩) (fun _ hv => hv)) (fun _ => ?_)
    exact Triple.pure (fun _ hl => hl)
  · refine Triple.bind ask_rule (fun ran => ?_)
    cases ran with
    | none => exact Triple.exit (fun l hl => ⟨hl.1,hpanic _ hl.2⟩)
    | some result =>
      refine Triple.bind observe_rule (fun progressed =>
        Triple.bind (Triple.when (fun _ => ?_)) (fun _ => ?_))
      · exact setOut_rule (g := id) (fun _ => rfl) (fun _ hv => hv)
      · exact Triple.pure (fun _ hl => hl)

/-- Calls are run in order, each with one result. -/
lemma dispatchCalls_rule {I : List ToolCall → View → Prop}
    (hstep : ∀ call calls v d, I (call :: calls) v → d.toolCallID = call.id → I calls { v with
      marks := v.marks ++ [.toolResult d], openCalls := v.openCalls.erase call.id })
    (h : ∀ calls, Leaves (I calls) R) (calls : List ToolCall) (tally : StepTally) :
    Phase held (I calls) (dispatchCalls w cfg calls tally) (fun _ => (I [])) R := by
  induction calls generalizing tally with
  | nil => exact Triple.pure (fun _ hl => hl)
  | cons call calls ih =>
    refine Triple.bind (note_rule rfl (h _).failed) (fun _ => ?_)
    refine Triple.bind (runCall_rule (h _).panicked) (fun ran => ?_)
    refine Triple.bind (setOut_rule (g := id) (fun _ => rfl) (fun _ hv => hv)) (fun _ => ?_)
    refine Triple.bind (recordCall_rule (Q := I calls) ?_ (h _).failed) (fun _ => ih ran.2)
    exact fun v hv => hstep call calls v _ hv rfl

lemma stepCost_cases (calls : ℕ) (tally : StepTally) (streak : ℕ) :
    1 ≤ (stepCost calls tally streak).1 ∧ (stepCost calls tally streak).1 ≤ stallCost := by
  unfold stepCost stallCost
  split_ifs <;> simp

lemma chargeStep_rule {Q : View → Prop} {calls : ℕ} {tally : StepTally}
    (hok : ∀ v cost, P v → 1 ≤ cost → cost ≤ stallCost →
      Q { v with budgetSpent := v.budgetSpent+cost }) :
    Phase held P (chargeStep cfg calls tally) (fun _ => Q) R := by
  refine Triple.bind (Triple.read (Q := fun cost => Over held (fun v => P v ∧ 1 ≤ cost.1 ∧
    cost.1 ≤ stallCost)) ?_) (fun cost => ?_)
  · exact fun l hl => ⟨hl.1,hl.2,stepCost_cases calls tally l.streak⟩
  refine Triple.bind (modify_rule (P := fun v => P v ∧ 1 ≤ cost.1 ∧ cost.1 ≤ stallCost)
    (Q := fun v => P v ∧ 1 ≤ cost.1 ∧ cost.1 ≤ stallCost) (f := id) (fun _ =>
      ⟨rfl,rfl⟩) (fun _ hv => hv)) (fun _ => ?_)
  refine Triple.bind (setOut_rule (Q := Q) (g := fun v => { v with
    budgetSpent := v.budgetSpent+cost.1 })
    (fun _ => rfl) (fun v hv => hok v cost.1 hv.1 hv.2.1 hv.2.2)) (fun _ => ?_)
  refine Triple.when (fun _ => Triple.bind (read_rule _) (fun effort => ?_))
  cases cfg.nextEffort effort with
  | none => exact Triple.pure (fun _ hl => hl)
  | some next =>
    refine Triple.bind (modify_rule (f := id) (fun _ => ⟨rfl,rfl⟩) (fun _ hv => hv)) (fun _ => ?_)
    exact setOut_rule (g := id) (fun _ => rfl) (fun _ hv => hv)

lemma reportMalformed_rule {Q : View → Prop} {response : Response}
    (hok : ∀ v m, P v → Q (v.mark (.userMessage m ""))) (hR : ∀ v, P v → R .failed v) :
    Phase held P (reportMalformed w cfg response) (fun _ => Q) R := by
  refine Triple.bind (Triple.each (fun m => note_rule rfl hR) _) (fun _ => ?_)
  exact append_rule rfl (fun v hv => hok v _ hv) (fun _ => hR)

lemma closeOrBounce_rule {Q : Bool → View → Prop} {response : Response}
    (hstop : ∀ v, P v → Q true v)
    (hbounce : ∀ v m, P v → v.bounces < maxCheckpointBounces →
      Q false { v.mark (.userMessage m originHarness) with bounces := v.bounces+1 })
    (h : Leaves P R) :
    Phase held P (closeOrBounce w cfg response) (fun stop => (Q stop)) R := by
  have hend : Phase held P (pure true) (fun stop => (Q stop)) R :=
    Triple.pure (fun l hl => ⟨hl.1,hstop _ hl.2⟩)
  refine Triple.bind (setOut_rule (g := id) (fun _ => rfl) (fun _ hv => hv)) (fun _ => ?_)
  refine Triple.bind ask_rule (fun cancelled => Triple.ite (fun _ => hend) (fun _ => ?_))
  refine Triple.bind ask_rule (fun checkpoint => ?_)
  cases checkpoint.ends with
  | panicked => exact Triple.exit (fun l hl => ⟨hl.1,h.panicked _ hl.2⟩)
  | failed =>
    refine Triple.bind (setOut_rule (g := id) (fun _ => rfl) (fun _ hv => hv)) (fun _ => ?_)
    exact Triple.bind (read_rule _) (fun bounces => Triple.bind (note_rule rfl h.failed)
      (fun _ => hend))
  | ok =>
    refine Triple.bind (Triple.when (fun _ => setOut_rule (g := id) (fun _ => rfl) (fun _ hv =>
      hv))) (fun _ => ?_)
    refine Triple.ite (fun _ => hend) (fun _ => Triple.bind ask_rule (fun cancelled => ?_))
    refine Triple.ite (fun _ => hend) (fun _ => Triple.bind (view_rule View.bounces (fun _ => rfl))
      (fun bounces => ?_))
    refine Triple.ite (fun _ => ?_) (fun hless => ?_)
    · refine Triple.bind (setOut_rule (Q := P) (g := id) (fun _ => rfl) (fun _ hv => hv.1))
        (fun _ => hend)
    · refine Triple.bind (append_rule (Q := fun v => ∃ v' m, P v' ∧
        v'.bounces < maxCheckpointBounces ∧
        v = v'.mark (.userMessage m originHarness)) rfl ?_ (fun _ v hv => h.failed v hv.1))
        (fun _ => ?_)
      · rintro v ⟨hv,rfl⟩
        exact ⟨v,_,hv,by omega,rfl⟩
      refine Triple.bind (setOut_rule (Q := Q false) (g := fun v => { v with
        bounces := v.bounces+1 }) (fun _ => rfl) ?_)
        (fun _ => Triple.pure (fun _ hl => hl))
      rintro v ⟨v',m,hv,hfew,rfl⟩
      exact hbounce v' m hv hfew

end

end Loop

end Manvi.Agent
