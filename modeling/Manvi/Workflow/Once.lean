import Manvi.Workflow.Dispatch

/-! A step's own act is answered as sent at most once. -/
namespace Manvi.Workflow
open Manvi.Encoding

/-- What may come while an act is outstanding. -/
def Accepted.Awaited (a : Accepted) : Prop :=
  (a.event.kind = .receipt ∧ (a.event.delivery = .sent ∨ a.event.delivery = .notSent)) ∨
    a.event.kind = .approvalChanged ∨ a.event.kind = .fence ∨ a.after.phase = .unknown

/-- A step's own act is answered as sent once at most, is only looked at again until the step is
left, and nothing but an answer comes while it is outstanding. -/
structure ActsOnce (hist : List Accepted) : Prop where
  once : ∀ pre b mid a post c d, hist = pre ++ b :: (mid ++ a :: post) → b.Delivers → a.Delivers →
    outstanding pre = some c → outstanding (pre ++ b :: mid) = some d → c.recoveryID = "" →
    d.recoveryID = "" →
      c.step.id ≠ d.step.id
  reobserves : ∀ pre b post c, hist = pre ++ b :: post → b.Delivers → outstanding pre = some c →
    c.recoveryID = "" → ∀ mid a post', b :: post = mid ++ a :: post' →
      a.after.stepIndex = b.before.stepIndex → ∀ d ∈ a.commands, d.kind = .observeAfter
  acting : ∀ a ∈ hist, (∃ c ∈ a.commands, c.kind = .act) → a.after.phase = .acting
  awaited : ∀ a ∈ hist, a.before.phase = .acting → a.Awaited

/-- An approval that is withdrawn, in time, while a recovery is under way. -/
def Accepted.WithdrawsRecovery (p : Program) (a : Accepted) : Prop :=
  a.event.kind = .approvalChanged ∧ a.before.activeRecovery ≠ "" ∧ a.InTime p

section
variable {p : Program} {s t : State} {step : Step} {event : Event} {inputs : Table String Value}
  {cmds : List Command}

/-- No recovery is under way but while its act is outstanding. -/
def Calm (s : State) : Prop := s.terminal = true ∨ (s.phase ≠ .acting → s.activeRecovery = "")

lemma ne_acting (h : s.phase = .observing ∨ s.phase = .awaitingApproval) : s.phase ≠ .acting := by
  rcases h with h | h <;> simp [h]

lemma Move.calm (h : Move p s step event inputs t cmds)
    (hs : s.phase ≠ .acting → s.activeRecovery = "")
    (hw : event.kind = .approvalChanged → s.activeRecovery = "" ∨ cmds = []) : Calm t := by
  have hkeep : ∀ {t : State}, t.activeRecovery = s.activeRecovery → s.phase ≠ .acting → Calm t :=
    fun h hne => .inr (fun _ => h.trans (hs hne))
  cases h with
  | halt phase => exact .inl (terminal_of_ended phase)
  | pause _ _ rests recovery =>
    apply hkeep recovery
    cases rests with
    | after h => simp [h]
    | before h => rcases h with h | h <;> simp [h]
    | still h => simp [h]
    | unstarted h => simp [h]
  | start _ ready => exact .inr (fun _ => hs (by simp [ready]))
  | startConclude | conclude => exact .inl (terminal_finishConclude _ _ _)
  | resume _ paused _ _ _ _ recovery => exact hkeep recovery (by simp [paused])
  | again was _ _ _ recovery =>
    apply hkeep recovery
    rcases was with h | h <;> simp [h]
  | recover _ _ _ _ _ _ _ _ phase => exact .inr (fun h => (h phase).elim)
  | enter _ was _ _ _ _ _ _ _ _ _ _ recovery =>
    apply hkeep recovery
    rcases was with h | h <;> simp [h]
  | complete _ _ _ _ _ _ phase => exact .inl (by simp [State.terminal,phase])
  | ask _ was _ _ _ _ _ recovery => exact hkeep recovery (by simp [was])
  | act _ _ _ _ phase => exact .inr (fun h => (h phase).elim)
  | approve _ _ _ phase => exact .inr (fun h => (h phase).elim)
  | recovered _ _ _ _ _ _ _ recovery => exact .inr (fun _ => recovery)
  | delivered _ _ _ _ _ _ _ recovery => exact .inr (fun _ => recovery)
  | refused _ _ _ _ _ recovery => exact .inr (fun _ => recovery)
  | retried _ _ _ _ _ recovery => exact .inr (fun _ => recovery)
  | withdraw kind _ _ _ _ _ recovery =>
    refine .inr (fun _ => ?_)
    rw [recovery]
    exact (hw kind).resolve_right (by simp)

/-- What comes while an act is outstanding answers it or ends the run. -/
lemma Move.awaited (h : Move p s step event inputs t cmds) (was : s.phase = .acting) :
    Accepted.Awaited ⟨s,event,t,cmds⟩ := by
  cases h with
  | halt _ _ _ _ _ acting =>
    rcases acting was with h | ⟨h1,h2⟩
    · exact .inr (.inr (.inr h))
    · exact .inl ⟨h1,.inr h2⟩
  | pause _ _ rests =>
    cases rests with
    | after h => simp [h] at was
    | before h => rcases h with h | h <;> simp [h] at was
    | still h => simp [h] at was
    | unstarted h => simp [h] at was
  | start _ h | startConclude _ h | resume _ h | recover _ h | ask _ h | act _ h | approve _ h =>
    simp [h] at was
  | again h | enter _ h | conclude _ h | complete _ h => rcases h with h | h <;> simp [h] at was
  | recovered kind sent | delivered kind sent => exact .inl ⟨kind,.inl sent⟩
  | refused kind notSent | retried kind notSent => exact .inl ⟨kind,.inr notSent⟩
  | withdraw kind => exact .inr (.inl kind)

end

section
variable {c : Artifact} {p : Program} {start s : State} {hist : List Accepted}

/-- While no approval is withdrawn from a recovery, the outstanding act names its recovery. -/
theorem Run.calm (hc : Compiled c p) (hstart : start.phase = .ready)
    (hempty : start.activeRecovery = "")
    (run : Run p start hist s) (h : ∀ a ∈ hist, ¬ a.WithdrawsRecovery p) :
    Calm s ∧ (s.phase = .acting → ∃ d, outstanding hist = some d ∧
      (d.recoveryID = "" → s.activeRecovery = "")) := by
  induction run with
  | nil => exact ⟨.inr (fun _ => hempty),fun ha => by simp [hstart] at ha⟩
  | @snoc hist s t event inputs cmds run hr ih =>
    obtain ⟨hcalm,hnamed⟩ := ih (fun a ha => h a (List.mem_append_left _ ha))
    have hlast := h _ (List.mem_append_right _ List.mem_cons_self)
    cases reduce_stepped hr with
    | fence kind after none =>
      subst after none
      refine ⟨hcalm,?_⟩
      rw [outstanding_snoc_of_still (by simp [Still])]
      exact hnamed
    | live kind step nonterminal here move late =>
      have hquiet : s.phase ≠ .acting → s.activeRecovery = "" :=
        hcalm.resolve_left (by simp [nonterminal])
      refine ⟨move.calm hquiet ?_,?_⟩
      · intro hk
        by_contra hnot
        obtain ⟨hbusy,hcmds⟩ := not_or.mp hnot
        refine hlast ⟨hk,hbusy,?_⟩
        by_contra hlate
        exact hcmds (late (not_le.mp hlate))
      · intro hacting
        cases move.acts with
        | act d only hd _ _ _ _ was own recovery =>
          refine ⟨d,outstanding_snoc_act only hd,fun _ => ?_⟩
          rw [recovery]
          exact hquiet (ne_acting was)
        | recover d only hd _ _ _ _ _ _ _ r mem named =>
          refine ⟨d,outstanding_snoc_act only hd,fun hown => ?_⟩
          rw [named] at hown
          exact ((hc.recoveries.2 r mem).1 hown).elim
        | none still phase => exact (phase hacting).elim

end

/-- In every run of a compiled program in which no approval is withdrawn from a recovery, a step's
own act is answered as sent at most once. -/
theorem actsOnce_of_no_withdrawn_recovery {validateAnchor : VisualAnchor → Except String Unit}
    {digest : String} {c : Artifact} {p : Program}
    (hcompile : compile validateAnchor digest c = .ok p)
    {runID sessionID : String} {epoch : UInt64} {start s : State} {hist : List Accepted}
    (hnew : newState p runID sessionID epoch = .ok start) (run : Run p start hist s)
    (h : ∀ a ∈ hist, ¬ a.WithdrawsRecovery p) : ActsOnce hist := by
  obtain ⟨hc,_⟩ := compile_compiled hcompile
  have hready := (newState_ready hnew).1
  have hempty : start.activeRecovery = "" := by
    unfold newState at hnew
    split_ifs at hnew
    cases hnew
    rfl
  have hfree : ∀ {pre post b d}, hist = pre ++ b :: post → b.Delivers → outstanding pre = some d →
      d.recoveryID = "" → b.before.activeRecovery = "" := by
    intro pre post b d hsplit hb hd hown
    rw [hsplit] at run
    obtain ⟨hpre,_⟩ := run.split
    obtain ⟨_,hnamed⟩ := hpre.calm hc hready hempty (fun a ha => h a (by simp [hsplit,ha]))
    obtain ⟨d',hd',himp⟩ := hnamed hb.1
    rw [hd] at hd'
    cases hd'
    exact himp hown
  refine ⟨?_,?_,?_,?_⟩
  · intro pre b mid a post act again hsplit hb ha hact hagain hown hagainown hsame
    have hbfree := hfree hsplit hb hact hown
    subst hsplit
    obtain ⟨hpre,_⟩ := run.split
    rw [show pre ++ b :: (mid ++ a :: post) = (pre ++ b :: mid) ++ a :: post by simp] at run
    obtain ⟨hbefore,_⟩ := run.split
    obtain ⟨hsettled,_⟩ := hbefore.settled hc hb (.inl hbfree)
    obtain ⟨act',hact',_,stepb,hstepb,hidb⟩ := hpre.inFlight (by simp [hready]) hb.1
    obtain ⟨again',hagain',_,stepa,hstepa,hida⟩ := hbefore.inFlight (by simp [hready]) ha.1
    rw [hact] at hact'
    rw [hagain] at hagain'
    cases hact'
    cases hagain'
    rw [hidb,hida] at hsame
    have hindex := hc.index_unique hstepb hstepa hsame
    rcases hsettled with hs | hs | ⟨_,hs⟩
    · simp [State.terminal,ha.1] at hs
    · omega
    · simp [ha.1] at hs
  · intro pre b post act hsplit hb hact hown mid a post' hmid hindex d hd
    have hbfree := hfree hsplit hb hact hown
    subst hsplit
    cases mid with
    | nil =>
      obtain ⟨rfl,rfl⟩ := List.cons.inj hmid
      obtain ⟨_,hcmds⟩ := run.settled hc hb (.inl hbfree)
      exact hcmds d hd
    | cons b' mid =>
      simp only [List.cons_append,List.cons.injEq] at hmid
      obtain ⟨rfl,rfl⟩ := hmid
      rw [show pre ++ b :: (mid ++ a :: post') = (pre ++ b :: mid) ++ a :: post' by simp] at run
      obtain ⟨hbefore,inputs,hreduce⟩ := run.split
      obtain ⟨hsettled,_⟩ := hbefore.settled hc hb (.inl hbfree)
      cases reduce_stepped hreduce with
      | fence kind after none =>
        rw [none] at hd
        cases hd
      | live kind step nonterminal here move late =>
        rcases hsettled with hs | hs | ⟨hat,hs⟩
        · rw [nonterminal] at hs
          cases hs
        · rcases move.stepIndex_le hc here with hend | hle
          · have hstill := move.commands_of_terminal here hend
            rw [hstill] at hd
            cases hd
          · rw [hindex] at hle
            exact (not_lt.mpr hle hs).elim
        · exact (move.settled hc here hs).2 (hindex.trans hat.symm) d hd
  · intro a ha hacts
    obtain ⟨pre,post,rfl⟩ := List.append_of_mem ha
    obtain ⟨_,inputs,hreduce⟩ := run.split
    obtain ⟨d,hd,hkind⟩ := hacts
    cases reduce_stepped hreduce with
    | fence kind after none =>
      rw [none] at hd
      cases hd
    | live kind step nonterminal here move late =>
      cases move.acts with
      | act _ _ _ _ _ phase => exact phase
      | recover _ _ _ _ _ phase => exact phase
      | none still => exact (still d hd hkind).elim
  · intro a ha hacting
    obtain ⟨pre,post,rfl⟩ := List.append_of_mem ha
    obtain ⟨_,inputs,hreduce⟩ := run.split
    cases reduce_stepped hreduce with
    | fence kind => exact .inr (.inr (.inl kind))
    | live kind step nonterminal here move late => exact move.awaited hacting

/-- A dialog is met; its recovery is withdrawn as if it were the step's act; then the step acts
twice. -/
def withdrawnEvents : List Event :=
  let seen (id : String) (actionable : Bool) (target : String) : Observation :=
    ⟨none,id,"t1",1,true,actionable,⟨.string,"x",0,false,""⟩,"",0,target⟩
  [⟨1,"r","s",1,0,10,.start,"",.zero,.none,"",""⟩,
   ⟨2,"r","s",1,0,20,.observed,"r:send",seen "o1" false "dialog",.none,"",""⟩,
   ⟨3,"r","s",1,0,30,.approvalChanged,"r:send",.zero,.none,"",""⟩,
   ⟨4,"r","s",1,0,40,.observed,"r:send",seen "o2" true "",.none,"",""⟩,
   ⟨5,"r","s",1,0,50,.approve,"r:send",seen "o2" true "",.none,"",""⟩,
   ⟨6,"r","s",1,0,60,.receipt,"r:send",.zero,.sent,"",""⟩,
   ⟨7,"r","s",1,0,70,.observed,"r:send",seen "o3" true "",.none,"",""⟩,
   ⟨8,"r","s",1,0,80,.approve,"r:send",seen "o3" true "",.none,"",""⟩,
   ⟨9,"r","s",1,0,90,.receipt,"r:send",.zero,.sent,"",""⟩]

theorem actsOnce_of_no_withdrawn_recovery_sentEvents : ∃ p start hist s,
    compile (fun _ => .ok ()) "digest" (simpleArtifact [pressStep .read,checkStep] []) = .ok p ∧
    newState p "r" "s" 1 = .ok start ∧ Run p start hist s ∧ (outstanding hist).isSome = true ∧
    (∀ a ∈ hist, ¬ a.WithdrawsRecovery p) ∧ ActsOnce hist := by
  have heval : (replayed (simpleArtifact [pressStep .read,checkStep] []) sentEvents).map (fun r =>
      ((outstanding r.2.2.1).isSome,r.2.2.1.map (fun a => a.before.activeRecovery))) = some (true,
        ["","",""]) := by
    decide
  obtain ⟨⟨p,start,hist,s⟩,hr,hboth⟩ := Option.map_eq_some_iff.mp heval
  obtain ⟨hout,hfree⟩ := Prod.mk.inj hboth
  obtain ⟨hp,hnew,run⟩ := replayed_run hr
  have hnone : ∀ a ∈ hist, ¬ a.WithdrawsRecovery p := by
    intro a ha hd
    have hmem : a.before.activeRecovery ∈ ["","",""] := by
      rw [← hfree]
      exact List.mem_map_of_mem ha
    exact hd.2.1 (by simpa using hmem)
  exact ⟨p,start,hist,s,hp,hnew,run,hout,hnone,actsOnce_of_no_withdrawn_recovery hp hnew run hnone⟩

/-- A step's own act is answered as sent twice. -/
theorem withdrawn_recovery_acts_twice : ∃ p start hist s,
    compile (fun _ => .ok ()) "digest" (simpleArtifact [pressStep .change,
      checkStep] [closeDialog]) = .ok p ∧
    newState p "r" "s" 1 = .ok start ∧ Run p start hist s ∧ ¬ ActsOnce hist := by
  have heval : (replayed (simpleArtifact [pressStep .change,
    checkStep] [closeDialog]) withdrawnEvents).map (fun r =>
      r.2.2.1.map (fun a => ((a.before.phase,a.event.kind,a.event.delivery),
        (outstanding [a]).map Command.recoveryID))) =
      some [((.ready,.start,.none),none),((.observing,.observed,.none),some "close"),
        ((.acting,.approvalChanged,.none),none),((.observing,.observed,.none),none),
        ((.awaitingApproval,.approve,.none),some ""),((.acting,.receipt,.sent),none),
        ((.observing,.observed,.none),none),((.awaitingApproval,.approve,.none),some ""),
        ((.acting,.receipt,.sent),none)] := by
    decide
  have hsteps : (replayed (simpleArtifact [pressStep .change,
    checkStep] [closeDialog]) withdrawnEvents).map (fun r =>
      r.2.2.1.map (fun a => (outstanding [a]).map (fun c => c.step.id))) =
      some [none,some "send",none,none,some "send",none,none,some "send",none] := by
    decide
  obtain ⟨⟨p,start,hist,s⟩,hr,hkinds⟩ := Option.map_eq_some_iff.mp heval
  rw [hr] at hsteps
  have hsteps := Option.some.inj hsteps
  obtain ⟨hp,hnew,run⟩ := replayed_run hr
  refine ⟨p,start,hist,s,hp,hnew,run,?_⟩
  intro honce
  obtain ⟨a1,rest,rfl,-,hrest⟩ := List.map_eq_cons_iff.mp hkinds
  obtain ⟨a2,rest,rfl,-,hrest⟩ := List.map_eq_cons_iff.mp hrest
  obtain ⟨a3,rest,rfl,-,hrest⟩ := List.map_eq_cons_iff.mp hrest
  obtain ⟨a4,rest,rfl,-,hrest⟩ := List.map_eq_cons_iff.mp hrest
  obtain ⟨a5,rest,rfl,h5,hrest⟩ := List.map_eq_cons_iff.mp hrest
  obtain ⟨a6,rest,rfl,h6,hrest⟩ := List.map_eq_cons_iff.mp hrest
  obtain ⟨a7,rest,rfl,-,hrest⟩ := List.map_eq_cons_iff.mp hrest
  obtain ⟨a8,rest,rfl,h8,hrest⟩ := List.map_eq_cons_iff.mp hrest
  obtain ⟨a9,rest,rfl,h9,-⟩ := List.map_eq_cons_iff.mp hrest
  obtain ⟨c,hc,hcown⟩ := Option.map_eq_some_iff.mp (Prod.mk.inj h5).2
  obtain ⟨d,hd,hdown⟩ := Option.map_eq_some_iff.mp (Prod.mk.inj h8).2
  obtain ⟨hphase6,hevent6⟩ := Prod.mk.inj (Prod.mk.inj h6).1
  obtain ⟨hphase9,hevent9⟩ := Prod.mk.inj (Prod.mk.inj h9).1
  have hpre : outstanding ([a1,a2,a3,a4] ++ [a5]) = some c := outstanding_snoc hc
  have hpre' : outstanding ([a1,a2,a3,a4,a5,a6,a7] ++ [a8]) = some d := outstanding_snoc hd
  simp only [List.map_cons,hc,hd,Option.map_some,List.cons.injEq,Option.some.injEq] at hsteps
  refine honce.once [a1,a2,a3,a4,a5] a6 [a7,a8] a9 rest c d rfl ⟨hphase6,Prod.mk.inj hevent6⟩
    ⟨hphase9,Prod.mk.inj hevent9⟩ hpre hpre' hcown hdown ?_
  rw [hsteps.2.2.2.2.1,hsteps.2.2.2.2.2.2.2.1]

end Manvi.Workflow
