import Manvi.Agent.Turn

/-! The step records of a turn add up to its outcome. -/
namespace Manvi.Agent
open Manvi.LLM Manvi.Session Manvi.Program

/-- What is billed: the tokens, the charge, and how many steps have no price. -/
@[ext] structure Bill where
  usage : Usage
  costNanoUSD : ℤ
  unpricedSteps : ℕ
  deriving Repr, DecidableEq

def Bill.zero : Bill := ⟨Usage.zero,0,0⟩

def Bill.add (a b : Bill) : Bill :=
  ⟨a.usage.add b.usage,a.costNanoUSD+b.costNanoUSD,a.unpricedSteps+b.unpricedSteps⟩

lemma Usage.add_assoc (a b c : Usage) : (a.add b).add c = a.add (b.add c) := by
  simp only [Usage.add,Int.add_assoc]

@[simp] lemma Usage.add_zero (a : Usage) : a.add Usage.zero = a := by
  simp only [Usage.add,Usage.zero,Int.add_zero]

lemma Usage.zero_add (a : Usage) : Usage.zero.add a = a := by
  simp only [Usage.add,Usage.zero,Int.zero_add]

lemma Bill.add_assoc (a b c : Bill) : (a.add b).add c = a.add (b.add c) := by
  simp only [Bill.add,Usage.add_assoc,Int.add_assoc,Nat.add_assoc]

@[simp] lemma Bill.add_zero (a : Bill) : a.add Bill.zero = a := by
  simp only [Bill.add,Bill.zero,Usage.add_zero,Int.add_zero,Nat.add_zero]

lemma Bill.zero_add (a : Bill) : Bill.zero.add a = a := by
  simp only [Bill.add,Bill.zero,Usage.zero_add,Int.zero_add,Nat.zero_add]

/-- A step's record as a bill. A step is unpriced when it was answered and carries no price. -/
def StepEndData.bill (s : StepEndData) : Bill :=
  ⟨s.usage,if s.priced then s.costNanoUSD else 0,if s.priced ∨ s.noResponse then 0 else 1⟩

/-- The records of the steps that end in a log. -/
def stepEnds (log : List LogEvent) : List StepEndData :=
  log.filterMap (fun e => match e with | .stepEnd s => some s | _ => none)

/-- The sum of some steps' records. -/
def totalBill (steps : List StepEndData) : Bill := steps.foldr (fun s b => s.bill.add b) Bill.zero

def Outcome.bill (out : Outcome) : Bill := ⟨out.usage,out.costNanoUSD,out.unpricedSteps⟩

@[simp] lemma totalBill_snoc (steps : List StepEndData) (s : StepEndData) :
    totalBill (steps ++ [s]) = (totalBill steps).add s.bill := by
  induction steps with
  | nil =>
    change s.bill.add Bill.zero = Bill.zero.add s.bill
    rw [Bill.add_zero,Bill.zero_add]
  | cons t steps ih =>
    change t.bill.add (totalBill (steps ++ [s])) = (t.bill.add (totalBill steps)).add s.bill
    rw [ih,Bill.add_assoc]

lemma stepEnds_filter_isMark (log : List LogEvent) :
    stepEnds (log.filter LogEvent.isMark) = stepEnds log := by
  unfold stepEnds
  rw [List.filterMap_filter]
  congr 1
  funext e
  cases e with
  | stepEnd s => rfl
  | note n => split_ifs <;> rfl
  | _ => rfl

/-- Some steps' records add up to a bill, with charges that cannot overflow it. -/
structure Balanced (steps : List StepEndData) (bill : Bill) : Prop where
  sum : totalBill steps = bill
  charges : ∀ s ∈ steps, 0 ≤ s.costNanoUSD
  fits : bill.costNanoUSD ≤ maxInt64

/-- A step without a response costs nothing. -/
lemma Balanced.enter {steps : List StepEndData} {bill : Bill} (h : Balanced steps bill) :
    Balanced (steps ++ [{ StepEndData.zero with noResponse := true }]) bill := by
  refine ⟨?_,?_,h.fits⟩
  · rw [totalBill_snoc,h.sum]
    exact Bill.add_zero bill
  · intro s hs
    rw [List.mem_append,List.mem_singleton] at hs
    obtain hs | rfl := hs
    · exact h.charges s hs
    · exact le_rfl

/-- An answered step takes the place of one without a response. -/
lemma Balanced.absorb {steps : List StepEndData} {bill : Bill}
    (h : Balanced (steps ++ [{ StepEndData.zero with noResponse := true }]) bill) {usage : Usage}
    {charge : ℤ × Bool}
    (hcharge : Chargeable bill.costNanoUSD charge) :
    Balanced (steps ++ [⟨usage,charge.1,charge.2,false⟩])
      (bill.add ⟨usage,if charge.2 then charge.1 else 0,if charge.2 then 0 else 1⟩) := by
  have hbefore : totalBill steps = bill := by
    have hsum := h.sum
    rw [totalBill_snoc] at hsum
    exact (Bill.add_zero _).symm.trans hsum
  refine ⟨?_,?_,?_⟩
  · rw [totalBill_snoc,hbefore]
    simp [StepEndData.bill]
  · intro s hs
    rw [List.mem_append,List.mem_singleton] at hs
    obtain hs | rfl := hs
    · exact h.charges s (List.mem_append_left _ hs)
    · obtain ⟨_,hpos,_⟩ | rfl := hcharge
      · exact hpos
      · exact le_rfl
  · obtain ⟨hpriced,_,hfits⟩ | rfl := hcharge
    · simpa [Bill.add,hpriced] using hfits
    · simpa [Bill.add] using h.fits

namespace View

def bill (v : View) : Bill := ⟨v.usage,v.costNanoUSD,v.unpricedSteps⟩

/-- The steps recorded, and the open one as it would be recorded now. -/
def steps (v : View) : List StepEndData := stepEnds v.marks ++ if v.stepOpen then [v.spent] else []

/-- What is recorded adds up to what the outcome says. -/
def Even (v : View) : Prop := Balanced v.steps v.bill

lemma stepEnds_mark (marks : List LogEvent) {e : LogEvent} (he : ∀ s, e ≠ .stepEnd s) :
    stepEnds (marks ++ [e]) = stepEnds marks := by
  unfold stepEnds
  rw [List.filterMap_append]
  cases e with
  | stepEnd s => exact absurd rfl (he s)
  | _ => simp

lemma steps_mark (v : View) {e : LogEvent} (he : ∀ s, e ≠ .stepEnd s) :
    (v.mark e).steps = v.steps := by
  unfold steps mark
  rw [stepEnds_mark v.marks he]

lemma steps_ended {v : View} (hopen : v.stepOpen = true) : v.ended.steps = v.steps := by
  simp [steps,ended,stepEnds,hopen]

lemma even_mark {v : View} (h : v.Even) {e : LogEvent} (he : ∀ s, e ≠ .stepEnd s) :
    (v.mark e).Even := by
  unfold Even
  rw [steps_mark v he]
  exact h

lemma even_ended {v : View} (h : v.Even) (hopen : v.stepOpen = true) : v.ended.Even := by
  unfold Even
  rw [steps_ended hopen]
  exact h

/-- In an open step. -/
structure Owing (v : View) : Prop where
  stepOpen : v.stepOpen = true
  even : v.Even

lemma owing_entered {v : View} (h : v.Even) (hclosed : v.stepOpen = false) : v.entered.Owing := by
  refine ⟨rfl,?_⟩
  have hsteps : v.entered.steps = v.steps ++ [{ StepEndData.zero with noResponse := true }] := by
    simp [steps,entered,mark,stepEnds,hclosed]
  unfold Even
  rw [hsteps]
  exact h.enter

lemma owing_absorbed {v : View} (h : v.Owing)
    (hspent : v.spent = { StepEndData.zero with noResponse := true })
    (m : Message) (usage : Usage) {charge : ℤ × Bool} (hcharge : Chargeable v.costNanoUSD charge) :
    ((v.answered m).absorbed usage charge).Owing := by
  have hbefore : v.steps = stepEnds v.marks ++ [{ StepEndData.zero with noResponse := true }] := by
    rw [steps,if_pos h.stepOpen,hspent]
  have heven := h.even
  unfold Even at heven
  rw [hbefore] at heven
  have hopen : ((v.answered m).absorbed usage charge).stepOpen = true := by
    unfold absorbed charged
    split_ifs <;> exact h.stepOpen
  have hsteps : ((v.answered m).absorbed usage charge).steps =
      stepEnds v.marks ++ [⟨usage,charge.1,charge.2,false⟩] := by
    rw [steps,if_pos hopen,← stepEnds_mark v.marks (e := .assistantMessage m) (by simp)]
    unfold absorbed charged
    split_ifs <;> rfl
  have hbill : ((v.answered m).absorbed usage charge).bill =
      v.bill.add ⟨usage,if charge.2 then charge.1 else 0,if charge.2 then 0 else 1⟩ := by
    unfold absorbed charged
    split_ifs <;> simp [bill,Bill.add,answered,mark,sent]
  refine ⟨hopen,?_⟩
  unfold Even
  rw [hsteps,hbill]
  exact heven.absorb hcharge

lemma Owing.mark {v : View} (h : v.Owing) {e : LogEvent} (he : ∀ s, e ≠ .stepEnd s) :
    (v.mark e).Owing :=
  ⟨h.stepOpen,even_mark h.even he⟩

end View

namespace Loop

/-- The records add up to the outcome, unless a panic left no outcome. -/
def Billed (left : Option Exit) (v : View) : Prop := left = some .panicked ∨ v.Even

lemma leaves_billed {P : View → Prop} (h : ∀ v, P v → v.Even) :
    Leaves P (fun e => Billed (some e)) :=
  ⟨fun v hv => .inr (h v hv),fun _ _ => .inl rfl⟩

/-- One round bills what it records, over a log that refuses nothing. -/
def billingRound {w : World} (cfg : Config) (haccepts : ¬ w.Refuses) :
    Round w cfg (fun e => Billed (some e)) where
  before v := v.stepOpen = false ∧ v.Even
  entered v := v.spent = { StepEndData.zero with noResponse := true } ∧ v.Owing
  absorbed _ v := v.Owing
  dispatching _ _ v := v.Owing
  charged _ v := v.Owing
  next v := v.stepOpen = false ∧ v.Even
  stopped v := v.stepOpen = false ∧ v.Even
  stop _ hv _ := hv
  enter v hv _ := ⟨rfl,View.owing_entered hv.2 hv.1⟩
  absorb v response charge hv hcharge :=
  View.owing_absorbed hv.2 hv.1 response.message response.usage hcharge
  retry v response step hv _ _ := by
    have hcharged : { v.costs 1 with nullRetries := v.nullRetries+1 }.Owing := ⟨hv.stepOpen,hv.even⟩
    have howing : (v.retried step (v.nullRetries+1)).Owing :=
      hcharged.mark (e := .note (.nullResponseRetried step (v.nullRetries+1))) (by simp)
    exact ⟨rfl,View.even_ended howing.even howing.stepOpen⟩
  dispatch _ _ hv := hv
  resolve v response call calls d hv _ := by
    have hmark : (v.mark (.toolResult d)).Owing := hv.mark (by simp)
    exact ⟨hmark.stepOpen,hmark.even⟩
  charge v response n hv _ _ := ⟨hv.stepOpen,hv.even⟩
  report v response m hv := by
    have howing : (v.mark (.userMessage m "")).Owing := hv.mark (by simp)
    exact ⟨rfl,View.even_ended howing.even howing.stepOpen⟩
  go v response hv := ⟨rfl,View.even_ended hv.even hv.stepOpen⟩
  close v response hv := ⟨rfl,View.even_ended hv.even hv.stepOpen⟩
  bounce v response m hv _ := ⟨rfl,View.even_mark (View.even_ended hv.even hv.stepOpen) (by simp)⟩
  leavesBefore := leaves_billed (fun _ hv => hv.2)
  leavesEntered := leaves_billed (fun _ hv => hv.2.even)
  leavesSent := by
    apply leaves_billed
    rintro v ⟨v',hv,rfl⟩
    exact hv.2.even
  leavesPricing _ _ _ := .inl rfl
  leavesAbsorbed _ := leaves_billed (fun _ hv => hv.even)
  leavesRetry _ _ hv _ := .inr hv.even
  leavesRetried hrefuses := absurd hrefuses haccepts
  leavesDispatching _ _ := leaves_billed (fun _ hv => hv.even)
  leavesCharged _ _ hv := .inr hv.even
  leavesReported hrefuses := absurd hrefuses haccepts
  leavesEnding hrefuses := absurd hrefuses haccepts
  leavesEnded _ := by
    apply leaves_billed
    rintro v ⟨v',hv,rfl⟩
    exact View.even_ended hv.even hv.stepOpen

lemma turn_billed {w : World} (cfg : Config) (haccepts : ¬ w.Refuses) (prompt : Message)
    (held : List LogEvent) :
    Phase held (fun v => v.marks = [] ∧ v.stepOpen = false) (turn w cfg prompt) (fun _ =>
      Billed none)
      (fun e => Billed (some e)) := by
  have hrounds : Phase held (fun v => v.stepOpen = false ∧ v.Even) (rounds w cfg (cfg.maxSteps+1) 1)
      (fun _ v => v.Even) (fun e => Billed (some e)) := by
    apply rounds_rule (J := fun _ v => v.stepOpen = false ∧ v.Even)
    · intro fuel step
      refine ((billingRound cfg haccepts).iterate_rule step).weaken (fun _ hl =>
        hl) ?_ (fun _ _ hl => hl)
      intro stop l hl
      cases stop with
      | false => exact hl
      | true => exact ⟨hl.1,hl.2.2⟩
    · exact fun v hv => .inr hv.2
  have hfresh : ∀ v : View, v.marks = [] ∧ v.stepOpen = false → v.fresh.Even := by
    rintro v ⟨hmarks,hclosed⟩
    have hsteps : v.fresh.steps = [] := by simp [View.steps,View.fresh,hmarks,hclosed,stepEnds]
    refine ⟨?_,?_,?_⟩
    · rw [hsteps]
      rfl
    · rw [hsteps]
      simp
    · change (0 : ℤ) ≤ maxInt64
      decide
  have hbegun : ∀ v : View, v.marks = [] ∧ v.stepOpen = false → v.begun.Even :=
    fun v hv => View.even_mark (hfresh v hv) (by simp)
  refine turn_rule ?_ (leaves_billed ?_) ?_ hrounds ?_ ?_
  · exact fun v hv => .inr (hfresh v hv)
  · rintro v ⟨v',hv,rfl⟩
    exact hbegun v' hv
  · exact fun v hv => ⟨hv.2,View.even_mark (hbegun v hv) (by simp)⟩
  · exact fun v hv => .inr hv
  · exact fun v hv => .inr (View.even_mark hv (by simp))

/-- The closing records the step that was left open. -/
lemma closeOpenBoundaries_billed {w : World} (haccepts : ¬ w.closing.Refuses) {held : List LogEvent}
    {left : Option Exit} {l : Loop} (hl : Over held (Billed left) l) :
    Over held (Billed left) (closeOpenBoundaries w l) := by
  have hmark : ∀ {v v' : View} {e : LogEvent}, (∀ s, e ≠ .stepEnd s) → v'.steps = (v.mark e).steps →
    v'.bill = v.bill →
      Billed left v → Billed left v' := by
    intro v v' e he hsteps hbill hv
    refine hv.imp_right (fun heven => ?_)
    unfold View.Even
    rw [hsteps,hbill]
    exact View.even_mark heven he
  refine closeOpenBoundaries_rule (I := fun _ => Billed left) (J := Billed left) (S := Billed left)
    (fun _ hv => hv) ?_
    (fun hrefuses => absurd hrefuses haccepts) (fun _ hv => hv) ?_ (fun _ hv _ => hv)
    (fun hrefuses => absurd hrefuses haccepts) ?_ (fun _ hv _ => hv) (fun hrefuses =>
      absurd hrefuses haccepts) hl
  · exact fun id ids v hv => hmark (e := .toolResult ⟨id,unwoundCallText,[],true⟩)
      (by simp) rfl rfl hv
  · exact fun v hv hopen => hv.imp_right (fun heven => View.even_ended heven hopen)
  · exact fun v hv _ => hmark (e := .turnEnd) (by simp) rfl rfl hv

/-- In a turn of a driver at rest over a log that takes every record, the records of the turn's
steps add up to the outcome that the turn returns, and their charges do not overflow on the way. -/
theorem run_bill {w : World} {cfg : Config} {held : List LogEvent} {l : Loop} (prompt : Message)
    (hl : Rested cfg held l) (haccepts : ¬ w.Refuses) (hcloses : ¬ w.closing.Refuses)
    (hreturns : (run w cfg prompt l).1 ≠ some .panicked) :
    ∃ new, (run w cfg prompt l).2.log = l.log ++ new ∧
      totalBill (stepEnds new) = (run w cfg prompt l).2.out.bill ∧
      (∀ s ∈ stepEnds new, 0 ≤ s.costNanoUSD) ∧
      (run w cfg prompt l).2.out.costNanoUSD ≤ maxInt64 := by
  have hstart : Over l.log (fun v => v.marks = [] ∧ v.stepOpen = false) l := by
    refine ⟨List.prefix_rfl,?_,hl.closed.2.1⟩
    simp [view]
  obtain ⟨l',hrun,hl'⟩ := run_rule (turn_billed cfg haccepts prompt l.log) (fun _ _ _ =>
    .inl rfl) hstart
  obtain ⟨⟨new,hlog⟩,hbilled⟩ := closeOpenBoundaries_billed hcloses hl'
  rw [← hrun] at hlog hbilled
  obtain hpanicked | heven := hbilled
  · exact absurd hpanicked hreturns
  have hclosed : (run w cfg prompt l).2.stepOpen = false := (hl.turn w prompt hcloses).closed.2.1
  have hsteps : ((run w cfg prompt l).2.view l.log).steps = stepEnds new := by
    have hmarks : ((run w cfg prompt l).2.view l.log).marks = new.filter LogEvent.isMark := by
      simp [view,← hlog]
    have hopen : ((run w cfg prompt l).2.view l.log).stepOpen = false := hclosed
    rw [View.steps,hmarks,hopen,stepEnds_filter_isMark]
    simp
  unfold View.Even at heven
  rw [hsteps] at heven
  exact ⟨new,hlog.symm,heven.sum,heven.charges,heven.fits⟩

/-- A response of three tokens to two, without calls. -/
def shortResponse : Response := ⟨⟨.assistant,[.text "done"],none⟩,⟨3,2,0,0,0⟩,false,0,true,[]⟩

/-- A turn of one step: the log bills it as the outcome does. -/
theorem run_bill_shortResponse :
    (run (quietWorld shortResponse 5) sampleConfig (textMessage "go")
      (newOver sampleConfig [])).2.out.bill =
      ⟨⟨3,2,0,0,0⟩,5,0⟩ ∧
    ∃ new, (run (quietWorld shortResponse 5) sampleConfig (textMessage "go")
      (newOver sampleConfig [])).2.log =
        [] ++ new ∧
      totalBill (stepEnds new) =
        (run (quietWorld shortResponse 5) sampleConfig (textMessage "go")
          (newOver sampleConfig [])).2.out.bill ∧
      (∀ s ∈ stepEnds new, 0 ≤ s.costNanoUSD) ∧
      (run (quietWorld shortResponse 5) sampleConfig (textMessage "go")
        (newOver sampleConfig [])).2.out.costNanoUSD
        ≤ maxInt64 :=
  ⟨by decide +kernel,run_bill (textMessage "go") .new (quietWorld_accepts _ _)
    (quietWorld_accepts _ _) (by decide +kernel)⟩

end Loop

end Manvi.Agent
