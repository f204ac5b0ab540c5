import Manvi.Workflow.Compiled

/-! Commands stay in the epoch of their state, and acts on what was observed in it. -/
namespace Manvi.Workflow
open Manvi.Encoding

/-- An answer with the epoch of its state: a later one after a pause or a resume, and otherwise that
of the state before. -/
structure InEpoch (s : State) (event : Event) (r : State × List Command) : Prop where
  epoch : s.epoch ≤ r.1.epoch
  commands : ∀ c ∈ r.2, c.epoch = r.1.epoch
  observed : event.kind = .observed → r.1.epoch = s.epoch
  acts : ∀ c ∈ r.2, c.kind = .act → c.observationID = "" ∨ (r.1.epoch = s.epoch ∧
    ((event.kind = .observed ∧ c.observationID = event.observation.id) ∨
      (s.phase = .awaitingApproval ∧ c.observationID = s.observation.id)))

section answers
variable {p : Program} {s t : State} {step : Step} {event : Event} {inputs : Table String Value}
  {cmds : List Command} {c : Command}

lemma InEpoch.of_nil (h : Onward s event t) : InEpoch s event (t,[]) := by
  refine ⟨?_,by simp,?_,by simp⟩
  · rcases h with h | ⟨-,h⟩
    · exact h ▸ UInt64.le_refl s.epoch
    · exact UInt64.le_of_lt h
  · intro hobserved
    rcases h with h | ⟨hpause,-⟩
    · exact h
    · rw [hpause] at hobserved
      cases hobserved

lemma InEpoch.of_single (h : t.epoch = s.epoch) (within : c.epoch = s.epoch)
    (on : c.kind = .act → c.observationID = "" ∨
      (event.kind = .observed ∧ c.observationID = event.observation.id) ∨
        (s.phase = .awaitingApproval ∧ c.observationID = s.observation.id)) : InEpoch s event (t,
          [c]) := by
  refine ⟨h ▸ UInt64.le_refl s.epoch,?_,fun _ => h,?_⟩
  · intro d hd
    obtain rfl := List.mem_singleton.mp hd
    exact within.trans h.symm
  · intro d hd hact
    obtain rfl := List.mem_singleton.mp hd
    exact (on hact).imp_right (fun hon => ⟨h,hon⟩)

lemma InEpoch.of_observe (h : t.epoch = s.epoch) (within : c.epoch = s.epoch) (hc : c.kind ≠ .act) :
    InEpoch s event (t,[c]) :=
  .of_single h within (fun hact => (hc hact).elim)

lemma Move.inEpoch (h : Move p s step event inputs t cmds) : InEpoch s event (t,cmds) := by
  cases h with
  | halt _ _ _ _ _ _ _ epoch => exact .of_nil epoch
  | pause _ _ _ _ _ _ epoch => exact .of_nil epoch
  | start _ _ _ _ c hc _ within => exact .of_observe rfl within (by simp [hc])
  | startConclude => exact .of_nil (.inl rfl)
  | resume kind _ _ _ _ _ _ c hc _ epoch within =>
    refine ⟨UInt64.le_of_lt epoch,?_,by simp [kind],?_⟩
    · intro d hd
      obtain rfl := List.mem_singleton.mp hd
      exact within
    · intro d hd hact
      obtain rfl := List.mem_singleton.mp hd
      rw [hc] at hact
      split_ifs at hact
  | again _ _ _ _ _ c hc _ _ epoch within =>
    refine .of_observe epoch within ?_
    rw [hc]
    split_ifs <;> simp
  | recover _ _ _ _ _ _ _ _ _ _ _ _ c _ _ _ _ _ epoch within on =>
    exact .of_single epoch within (fun _ => .inl on)
  | enter _ _ _ _ _ _ _ _ _ _ _ _ _ c hc _ epoch within =>
    exact .of_observe epoch within (by simp [hc])
  | conclude _ _ _ _ _ _ _ _ _ _ epoch => exact .of_nil (.inl epoch)
  | complete _ _ _ _ _ _ _ _ epoch => exact .of_nil (.inl epoch)
  | ask _ _ _ _ _ _ _ _ _ _ c hc _ _ _ _ epoch within =>
    exact .of_observe epoch within (by simp [hc])
  | act kind _ _ _ _ _ _ _ _ _ c _ _ _ _ _ _ epoch within on =>
    exact .of_single epoch within (fun _ => .inr (.inl ⟨kind,on⟩))
  | approve _ was _ _ _ _ _ _ c _ _ _ _ epoch within on =>
    exact .of_single epoch within (fun _ => .inr (.inr ⟨was,on⟩))
  | recovered _ _ _ _ _ _ _ _ c hc _ epoch within | delivered _ _ _ _ _ _ _ _ c hc _ epoch within =>
    exact .of_observe epoch within (by simp [hc])
  | refused _ _ _ _ _ _ _ _ _ epoch => exact .of_nil (.inl epoch)
  | retried _ _ _ _ _ _ _ _ _ c hc _ epoch within => exact .of_observe epoch within (by simp [hc])
  | withdraw _ _ _ _ _ _ _ c hc _ epoch within => exact .of_observe epoch within (by simp [hc])

/-- Every event that is taken has the epoch of its state, and its answer is in epoch. -/
theorem reduce_inEpoch (hr : reduce p s event inputs = .ok (t,cmds)) :
    event.epoch = s.epoch ∧ InEpoch s event (t,cmds) := by
  refine ⟨reduce_epoch hr,?_⟩
  cases reduce_stepped hr with
  | fence kind after none later =>
    rw [after,none]
    exact ⟨UInt64.le_of_lt later,by simp,by simp [kind],by simp⟩
  | live _ step _ _ move =>
    have hlive := move.inEpoch
    exact ⟨hlive.epoch,hlive.commands,hlive.observed,hlive.acts⟩

end answers

/-- An event of a run stays in its epoch: its commands carry the epoch of the state after it, which
is not below the one before, and an act on an observation is on one that was taken in that epoch. -/
structure StaysInEpoch (pre : List Accepted) (a : Accepted) : Prop where
  commands : ∀ c ∈ a.commands, c.epoch = a.after.epoch
  monotone : a.before.epoch ≤ a.after.epoch
  acts : ∀ c ∈ a.commands, c.kind = .act → c.observationID ≠ "" → ∃ o ∈ pre ++ [a],
    o.event.kind = .observed ∧
    o.event.observation.id = c.observationID ∧ o.event.epoch = c.epoch

/-- A fence that is taken while an approval is awaited. -/
def Accepted.FencesApproval (a : Accepted) : Prop :=
  a.event.kind = .fence ∧ a.before.phase = .awaitingApproval

section runs
variable {p : Program} {start s : State} {hist : List Accepted}

/-- What a run waits to have approved was observed in its epoch. -/
lemma Run.observedInEpoch (hstart : start.phase ≠ .awaitingApproval) (run : Run p start hist s)
    (hno : ∀ a ∈ hist, ¬ a.FencesApproval) (hs : s.phase = .awaitingApproval) :
    ∃ o ∈ hist, o.event.kind = .observed ∧ o.event.observation.id = s.observation.id ∧
    o.event.epoch = s.epoch := by
  induction run with
  | nil => exact (hstart hs).elim
  | @snoc hist s s' event inputs cmds run h ih =>
    obtain ⟨hepoch,hin⟩ := reduce_inEpoch h
    cases reduce_taken h with
    | fence hk hafter =>
      rw [hafter] at hs
      exact (hno _ (List.mem_append_right _ (List.mem_singleton_self _)) ⟨hk,hs⟩).elim
    | quiet phase => exact (phase hs).elim
    | asks ha =>
      refine ⟨_,List.mem_append_right _ (List.mem_singleton_self _),ha.observed,?_,?_⟩
      · exact congrArg Observation.id ha.observation.symm
      · exact hepoch.trans (hin.observed ha.observed).symm
    | approves _ _ _ phase =>
      rw [phase] at hs
      cases hs

/-- In a run that takes no fence while it waits for an approval, every event stays in its epoch. -/
theorem stays_in_epoch {runID sessionID : String} {epoch : UInt64}
    (hnew : newState p runID sessionID epoch = .ok start)
    (run : Run p start hist s) (hno : ∀ a ∈ hist, ¬ a.FencesApproval) {pre post : List Accepted}
    {a : Accepted}
    (hsplit : hist = pre ++ a :: post) : StaysInEpoch pre a := by
  subst hsplit
  have hready := (newState_ready hnew).1
  have hstart : start.phase ≠ .awaitingApproval := by
    rw [hready]
    simp
  obtain ⟨hbefore,inputs,hreduce⟩ := run.split
  obtain ⟨hepoch,hin⟩ := reduce_inEpoch hreduce
  refine ⟨hin.commands,hin.epoch,?_⟩
  intro c hc hact hid
  obtain hnone | ⟨hsame,⟨hk,hobs⟩ | ⟨hphase,hobs⟩⟩ := hin.acts c hc hact
  · exact absurd hnone hid
  · refine ⟨a,by simp,hk,hobs.symm,?_⟩
    rw [hin.commands c hc,hepoch]
    exact hsame.symm
  · obtain ⟨o,ho,hok,hoid,hoe⟩ :=
      hbefore.observedInEpoch hstart (fun b hb => hno b (List.mem_append_left _ hb)) hphase
    refine ⟨o,List.mem_append_left _ ho,hok,hoid.trans hobs.symm,?_⟩
    rw [hin.commands c hc,hoe]
    exact hsame.symm

end runs

/-- The record of some events on a compiled capability, cut before the last of them. -/
lemma replayed_snoc {α : Type} {c : Artifact} {events : List Event} (f : Accepted → α)
    (front : List α) (last : α)
    (h : (replayed c events).map (fun r => r.2.2.1.map f) = some (front ++ [last])) :
    ∃ p start pre a s, compile (fun _ => .ok ()) "digest" c = .ok p ∧
    newState p "r" "s" 1 = .ok start ∧
      Run p start (pre ++ [a]) s ∧ pre.map f = front ∧ f a = last := by
  obtain ⟨⟨p,start,hist,s⟩,hr,hout⟩ := Option.map_eq_some_iff.mp h
  obtain ⟨hp,hnew,run⟩ := replayed_run hr
  obtain ⟨pre,post,hsplit,hpre,hpost⟩ := List.map_eq_append_iff.mp hout
  obtain ⟨a,rfl,ha⟩ := List.map_eq_singleton_iff.mp hpost
  refine ⟨p,start,pre,a,s,hp,hnew,?_,hpre,ha⟩
  rw [← hsplit]
  exact run

theorem stays_in_epoch_pressEvents : ∃ p start pre a s,
    compile (fun _ => .ok ()) "digest" (simpleArtifact [pressStep .change,checkStep] []) = .ok p ∧
    newState p "r" "s" 1 = .ok start ∧ Run p start (pre ++ [a]) s ∧ a.event.kind = .approve ∧
    a.commands.length = 1 ∧ StaysInEpoch pre a := by
  obtain ⟨p,start,pre,a,s,hp,hnew,run,hpre,ha⟩ := @replayed_snoc _
    (simpleArtifact [pressStep .change,checkStep] []) pressEvents
    (fun a => (a.event.kind,a.commands.length)) [(.start,1),(.observed,1)] (.approve,1) (by decide)
  obtain ⟨hk,hn⟩ := Prod.mk.inj ha
  have hno : ∀ b ∈ pre ++ [a], ¬ b.FencesApproval := by
    intro b hb hfence
    obtain hb | hb := List.mem_append.mp hb
    · have hmem := List.mem_map_of_mem (f := fun a => (a.event.kind,a.commands.length)) hb
      rw [hpre,hfence.1] at hmem
      simp at hmem
    · rw [List.mem_singleton.mp hb] at hfence
      rw [hfence.1] at hk
      cases hk
  exact ⟨p,start,pre,a,s,hp,hnew,run,hk,hn,stays_in_epoch hnew run hno rfl⟩

/-- The events of a run that is fenced while it waits for the approval. -/
def fencedEvents : List Event :=
  [⟨1,"r","s",1,0,10,.start,"",.zero,.none,"",""⟩,
   ⟨2,"r","s",1,0,20,.observed,"r:send",⟨none,"o1","t1",1,true,true,Value.zero,"",0,""⟩,.none,
     "",""⟩,
   ⟨3,"r","s",1,2,30,.fence,"",.zero,.none,"",""⟩,
   ⟨4,"r","s",2,0,40,.approve,"r:send",{ Observation.zero with id := "o1" },.none,"",""⟩]

/-- The approval after a fence acts on an observation of the epoch before it. -/
theorem fenced_approval_acts : ∃ p start pre a s,
    compile (fun _ => .ok ()) "digest" (simpleArtifact [pressStep .change,checkStep] []) = .ok p ∧
    newState p "r" "s" 1 = .ok start ∧ Run p start (pre ++ [a]) s ∧ ¬ StaysInEpoch pre a := by
  obtain ⟨p,start,pre,a,s,hp,hnew,run,hpre,ha⟩ := @replayed_snoc _
    (simpleArtifact [pressStep .change,checkStep] []) fencedEvents
    (fun a => (a.event.kind,a.event.epoch,
      a.commands.any (fun c => c.kind = .act && c.observationID = "o1" && c.epoch = 2)))
    [(.start,1,false),(.observed,1,false),(.fence,1,false)] (.approve,2,true) (by decide)
  refine ⟨p,start,pre,a,s,hp,hnew,run,fun h => ?_⟩
  obtain ⟨hk,ha⟩ := Prod.mk.inj ha
  obtain ⟨c,hc,hcmd⟩ := List.any_eq_true.mp (Prod.mk.inj ha).2
  obtain ⟨⟨hact,hid⟩,hce⟩ : (c.kind = .act ∧ c.observationID = "o1") ∧
    c.epoch = 2 := by simpa using hcmd
  obtain ⟨o,ho,hok,-,hoe⟩ := h.acts c hc hact (by rw [hid]; decide)
  rw [hce] at hoe
  obtain ho | ho := List.mem_append.mp ho
  · have hmem := List.mem_map_of_mem (f := fun a : Accepted => (a.event.kind,a.event.epoch,
      a.commands.any (fun c => c.kind = .act && c.observationID = "o1" && c.epoch = 2))) ho
    rw [hpre,hok,hoe] at hmem
    simp at hmem
  · rw [List.mem_singleton.mp ho,hk] at hok
    cases hok

end Manvi.Workflow
