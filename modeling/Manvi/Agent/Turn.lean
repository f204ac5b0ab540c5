import Manvi.Agent.Round

/-! A whole turn: what holds of it however it is left, and what its deferred closing adds to the
log. -/
namespace Manvi.Agent
open Manvi.LLM Manvi.Session Manvi.Program

/-- Nothing is metered yet in this turn. -/
def View.fresh (v : View) : View :=
  { v with
    nullRetries := 0, requests := 0, usage := Usage.zero, costNanoUSD := 0, unpricedSteps :=
      0, budgetSpent := 0
    bounces := 0, openCalls := [] }

/-- The turn is open in the log. -/
def View.begun (v : View) : View := { v.fresh.mark .turnStart with turnOpen := true }

/-- A call that the turn left open is given a result. -/
def View.unwound (v : View) (id : CallID) (ids : List CallID) : View :=
  { v.mark (.toolResult ⟨id,unwoundCallText,[],true⟩) with openCalls := ids }

namespace Loop
variable {w : World} {cfg : Config} {held : List LogEvent} {prompt : Message}
    {P S Q J : View → Prop}
  {R : Exit → View → Prop}

/-- What a turn does up to its deferred closing. -/
theorem turn_rule (hrefused : ∀ v, P v → R .failed v.fresh)
    (hbegun : Leaves (fun v => ∃ v', P v' ∧ v = v'.begun) R)
    (hstart : ∀ v, P v → J (v.begun.mark (.userMessage prompt "")))
    (hrounds : Phase held J (rounds w cfg (cfg.maxSteps+1) 1) (fun _ => S) R)
    (hleave : ∀ v, S v → R .failed v)
    (hend : ∀ v, S v → Q { v.mark .turnEnd with turnOpen := false }) :
    Phase held P (turn w cfg prompt) (fun _ => Q) R := by
  refine Triple.bind (modify_rule (Q := fun v => ∃ v', P v' ∧
    v = { v'.fresh with openCalls := v'.openCalls })
    (f := fun v => { v.fresh with openCalls := v.openCalls }) (fun _ => ⟨rfl,rfl⟩) (fun v hv =>
      ⟨v,hv,rfl⟩)) (fun _ => ?_)
  refine Triple.bind (openTurn_rule (Q := J) ?_ ?_ ⟨?_,?_⟩) (fun _ => ?_)
  · rintro v ⟨v',hv,rfl⟩
    exact hstart v' hv
  · rintro v ⟨v',hv,rfl⟩
    exact hrefused v' hv
  · rintro v ⟨_,⟨v',hv,rfl⟩,rfl⟩
    exact hbegun.failed _ ⟨v',hv,rfl⟩
  · rintro v ⟨_,⟨v',hv,rfl⟩,rfl⟩
    exact hbegun.panicked _ ⟨v',hv,rfl⟩
  refine Triple.bind (setOut_rule (g := id) (fun _ => rfl) (fun _ hv => hv)) (fun _ =>
    Triple.bind hrounds (fun _ => ?_))
  refine Triple.bind (modify_rule (f := id) (fun _ => ⟨rfl,rfl⟩) (fun _ hv => hv)) (fun _ => ?_)
  exact endTurn_rule hend (fun _ => hleave)

/-- Publishing the end of a turn changes nothing that is seen. -/
lemma announceTurnEnd_rule (hpanic : ∀ v, P v → R .panicked v) :
    Phase held P (announceTurnEnd w) (fun _ => P) R := by
  refine Triple.bind (read_rule _) (fun announced => Triple.when (fun _ => ?_))
  refine Triple.bind (modify_rule (f := id) (fun _ => ⟨rfl,rfl⟩) (fun _ hv => hv)) (fun _ => ?_)
  refine Triple.bind ask_rule (fun ended => ?_)
  cases ended with
  | panicked => exact Triple.exit (fun l hl => ⟨hl.1,hpanic _ hl.2⟩)
  | ok => exact Triple.pure (fun _ hl => hl)
  | failed => exact Triple.pure (fun _ hl => hl)

/-- A driver is closed from what its turn was left with. -/
theorem run_rule {F : Option Exit → View → Prop}
    (hturn : Phase held P (turn w cfg prompt) (fun _ => F none) (fun e => F (some e)))
    (hpanic : ∀ x v, F x v → F (some .panicked) v) {l : Loop} (hl : Over held P l) :
    ∃ l', (run w cfg prompt l).2 = closeOpenBoundaries w l' ∧
    Over held (F (run w cfg prompt l).1) l' := by
  refine ⟨(announceTurnEnd w (turn w cfg prompt l).2).2,rfl,?_⟩
  obtain ⟨hok,herror⟩ := hturn l hl
  have hleft : Over held (F (leftBy (turn w cfg prompt l).1)) (turn w cfg prompt l).2 := by
    cases hrun : turn w cfg prompt l with
    | mk r l1 =>
      cases r with
      | ok a => exact hok a l1 hrun
      | error e => exact herror e l1 hrun
  have hannounce : Phase held (F (leftBy (turn w cfg prompt l).1)) (announceTurnEnd w)
      (fun _ => F (leftBy (turn w cfg prompt l).1)) (fun e v => e = .panicked ∧
        F (some .panicked) v) :=
    announceTurnEnd_rule (fun v hv => ⟨rfl,hpanic _ v hv⟩)
  obtain ⟨hok,herror⟩ := hannounce _ hleft
  cases hrun : announceTurnEnd w (turn w cfg prompt l).2 with
  | mk a l2 =>
    cases a with
    | ok u =>
      have hresult : (run w cfg prompt l).1 = leftBy
        (turn w cfg prompt l).1 := by simp only [run,hrun]
      rw [hresult]
      exact hok u l2 hrun
    | error e =>
      have hresult : (run w cfg prompt l).1 = some e := by simp only [run,hrun]
      obtain ⟨hlog,he,hview⟩ := herror e l2 hrun
      rw [hresult,he]
      exact ⟨hlog,hview⟩

/-! The deferred closing. -/

lemma answerCalls_rule {I : List CallID → View → Prop} (hanswer : ∀ id ids v, I (id :: ids) v →
    I ids (v.unwound id ids))
    (hR : w.Refuses → ∀ ids v, I ids v → R .failed v) (ids : List CallID) :
    Phase held (I ids) (answerCalls w ids) (fun _ => I []) R := by
  induction ids with
  | nil => exact Triple.pure (fun _ hl => hl)
  | cons id ids ih =>
    refine Triple.bind (append_rule (Q := fun v => ∃ v', I (id :: ids) v' ∧
      v = v'.mark (.toolResult ⟨id,unwoundCallText,[],true⟩)) rfl (fun v hv => ⟨v,hv,rfl⟩)
      (fun hrefuses v hv => hR hrefuses _ v hv)) (fun _ => ?_)
    refine Triple.bind (modify_rule (Q := I ids) (f := fun v => { v with openCalls := ids })
      (fun _ => ⟨rfl,rfl⟩) ?_) (fun _ => ih)
    rintro v ⟨v',hv,rfl⟩
    exact hanswer id ids v' hv

lemma answerOpenCalls_rule {I : List CallID → View → Prop} (hstart : ∀ v, P v → I v.openCalls v)
    (hanswer : ∀ id ids v, I (id :: ids) v → I ids (v.unwound id ids))
    (hR : w.Refuses → ∀ ids v, I ids v → R .failed v) :
    Phase held P (answerOpenCalls w) (fun _ => I []) R := by
  refine Triple.bind (view_rule View.openCalls (fun _ => rfl)) (fun ids => ?_)
  refine (answerCalls_rule hanswer hR ids).weaken ?_ (fun _ _ hl => hl) (fun _ _ hl => hl)
  rintro l ⟨hlog,hv,rfl⟩
  exact ⟨hlog,hstart _ hv⟩

/-- The closing, part by part. A part that the log refuses leaves what it has changed. -/
theorem closeOpenBoundaries_rule {I : List CallID → View → Prop}
    (hstart : ∀ v, P v → I v.openCalls v)
    (hanswer : ∀ id ids v, I (id :: ids) v → I ids (v.unwound id ids))
    (hunanswered : w.closing.Refuses → ∀ ids v, I ids v → J v) (hanswered : ∀ v, I [] v → J v)
    (hstep : ∀ v, J v → v.stepOpen = true → S v.ended)
    (hnostep : ∀ v, J v → v.stepOpen = false → S v)
    (hstepRefused : w.closing.Refuses → ∀ v, J v → S { v with spent := StepEndData.zero })
    (hturn : ∀ v, S v → v.turnOpen = true → Q { v.mark .turnEnd with turnOpen := false })
    (hnoturn : ∀ v, S v → v.turnOpen = false → Q v) (hturnRefused : w.closing.Refuses → ∀ v,
      S v → Q v)
    {l : Loop} (hl : Over held P l) : Over held Q (closeOpenBoundaries w l) := by
  have hone : Over held J (answerOpenCalls w.closing l).2 := by
    apply Triple.state _ hl
    refine (answerOpenCalls_rule (R := fun _ => J) hstart hanswer hunanswered).weaken (fun _ hl =>
      hl) ?_ (fun _ _ hl => hl)
    exact fun _ l hl => ⟨hl.1,hanswered _ hl.2⟩
  have htwo : ∀ l, Over held J l → Over held S (if l.stepOpen then (endStep w.closing l).2
    else l) := by
    intro l hl
    by_cases hopen : l.stepOpen = true
    · rw [if_pos hopen]
      refine Triple.state (P := Over held (fun v => J v ∧ v.stepOpen = true)) ?_ ⟨hl.1,hl.2,hopen⟩
      exact endStep_rule (R := fun _ => S) (fun v hv => hstep v hv.1 hv.2) (fun hrefuses v hv =>
        hstepRefused hrefuses v hv.1)
    · rw [if_neg hopen]
      rw [Bool.not_eq_true] at hopen
      exact ⟨hl.1,hnostep _ hl.2 hopen⟩
  have hthree : ∀ l, Over held S l → Over held Q (if l.turnOpen then (endTurn w.closing l).2
    else l) := by
    intro l hl
    by_cases hopen : l.turnOpen = true
    · rw [if_pos hopen]
      refine Triple.state (P := Over held (fun v => S v ∧ v.turnOpen = true)) ?_ ⟨hl.1,hl.2,hopen⟩
      exact endTurn_rule (R := fun _ => Q) (fun v hv => hturn v hv.1 hv.2) (fun hrefuses v hv =>
        hturnRefused hrefuses v hv.1)
    · rw [if_neg hopen]
      rw [Bool.not_eq_true] at hopen
      exact ⟨hl.1,hnoturn _ hl.2 hopen⟩
  exact hthree _ (htwo _ hone)

/-- Everything is closed once the log takes the closing. -/
lemma closeOpenBoundaries_closed (haccepts : ¬ w.closing.Refuses) (l : Loop) :
    (closeOpenBoundaries w l).openCalls = [] ∧ (closeOpenBoundaries w l).stepOpen = false ∧
      (closeOpenBoundaries w l).turnOpen = false := by
  have hl : Over [] (fun _ => True) l := ⟨List.nil_prefix,trivial⟩
  have hclosed : Over [] (fun v => v.openCalls = [] ∧ v.stepOpen = false ∧
    v.turnOpen = false) (closeOpenBoundaries w l) := by
    refine closeOpenBoundaries_rule (I := fun ids v => v.openCalls = ids) (J := fun v =>
      v.openCalls = [])
      (S := fun v => v.openCalls = [] ∧ v.stepOpen = false) (fun _ _ => rfl) (fun _ _ _ _ =>
        rfl) ?_ (fun _ hv => hv)
      (fun _ hv _ => ⟨hv,rfl⟩) (fun _ hv hopen => ⟨hv,hopen⟩) ?_ (fun _ hv _ => ⟨hv.1,hv.2,rfl⟩)
      (fun _ hv hopen => ⟨hv.1,hv.2,hopen⟩) ?_ hl
    · exact fun hrefuses => absurd hrefuses haccepts
    · exact fun hrefuses => absurd hrefuses haccepts
    · exact fun hrefuses => absurd hrefuses haccepts
  exact hclosed.2

/-- A new driver over a log. -/
def newOver (cfg : Config) (held : List LogEvent) : Loop := { newLoop cfg with log := held }

/-- A driver between turns: new over a log, or as a turn leaves it whose closing the log took. -/
inductive Rested (cfg : Config) (held : List LogEvent) : Loop → Prop
  | new : Rested cfg held (newOver cfg held)
  | turn {l : Loop} (w : World) (prompt : Message) (haccepts : ¬ w.closing.Refuses)
      (hl : Rested cfg held l) :
    Rested cfg held (run w cfg prompt l).2

lemma Rested.closed {l : Loop} (h : Rested cfg held l) :
    l.openCalls = [] ∧ l.stepOpen = false ∧ l.turnOpen = false := by
  cases h with
  | new => exact ⟨rfl,rfl,rfl⟩
  | turn w prompt haccepts _ => exact closeOpenBoundaries_closed haccepts _

/-- An outside in which nothing fails, every call is answered with a text, and every request
alike. -/
def quietWorld (response : Response) (charge : ℤ) : World where
  accepts _ := true
  acceptsClosing _ := true
  turnStarting _ := .ok
  derives _ := .ok
  preStep _ := ⟨[],false,.ok⟩
  drops _ := false
  assembles _ := .ok
  streams _ := ⟨1,.ok response⟩
  charges _ _ := .ok charge
  dispatching _ := .ok
  allows _ := true
  runs _ := some ⟨"done",[],false,false,false,"","",[],"",[]⟩
  cancelled _ := false
  checkpoint _ := ⟨.ok,"",""⟩
  turnEnded _ := .ok

lemma quietWorld_accepts (response : Response) (charge : ℤ) :
    ¬ (quietWorld response charge).Refuses := by
  rintro ⟨_,h⟩
  cases h

def sampleConfig : Config where
  maxSteps := 2
  systemPrompt := ""
  effort := ""
  nextEffort _ := none
  effectiveMaxTokens := 0
  priced := true
  mutating _ := false
  resultDigest _ _ := []
  refusalText _ _ := ""
  malformedText _ := ""

end Loop

end Manvi.Agent
