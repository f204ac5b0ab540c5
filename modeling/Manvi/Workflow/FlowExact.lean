import Manvi.Encoding.Paths
import Manvi.Workflow.Flow

/-! The flow check against the graph that a run follows: what it refuses, and where the two graphs
differ. -/
namespace Manvi.Workflow
open Manvi.Encoding

/-- Where a run goes from a step: nowhere from a conclude step, unless runs are taken to go on past
them. -/
def Program.Goes (p : Program) (past : Bool) (i j : ℕ) : Prop :=
  j < p.spec.steps.length ∧ ∃ step next, p.spec.steps[i]? = some step ∧
  (past = true ∨ step.kind ≠ .conclude) ∧
    Edge step next ∧ j = if next = "" then i+1 else p.position next

/-- The step at a place extracts an output. -/
def Program.Extracts (p : Program) (key : String) (i : ℕ) : Prop :=
  ∃ step, p.spec.steps[i]? = some step ∧ step.kind = .extract ∧ step.output = key

/-- A step uses an output: it reads it, or it concludes with an outcome that needs it. -/
def Uses (c : Artifact) (s : Step) (key : String) : Prop :=
  (∃ r, s.reads = some r ∧ r.source = .output ∧ r.key = key) ∨
  (s.kind = .conclude ∧ ∃ o, c.outcomes.find? (fun o => o.id = s.outcome) = some o ∧
    key ∈ requiredOutputs c.outputs o)

/-- Every step has a path from the first. -/
def Program.AllReached (p : Program) (past : Bool) : Prop :=
  ∀ i < p.spec.steps.length, Reaches (p.Goes past) i

/-- Some path from the first step to a use of an output has no extract of it. -/
def UndefinedUse (c : Artifact) (p : Program) (past : Bool) : Prop :=
  ∃ i step key, p.spec.steps[i]? = some step ∧ Uses c step key ∧
  Avoids (p.Goes past) (p.Extracts key) i

/-- The graph has an unreachable step or an undefined output. -/
def Refusable (c : Artifact) (p : Program) (past : Bool) : Prop :=
  ¬ p.AllReached past ∨ UndefinedUse c p past

/-- The refusal of an unreachable step or of an undefined output. -/
def FlowFault (p : Program) (e : String) : Prop :=
  ∃ step ∈ p.spec.steps, e = s!"step {step.id} is unreachable" ∨
  (∃ key : String, e = s!"step {step.id} uses output {repr key} before it is defined on every path") ∨
  ∃ key : String, e = s!"conclude {step.id} missing output {repr key} on its path"

/-- The flow check refuses for its graph exactly what the graph of runs has wrong. -/
def FlowExact (c : Artifact) (p : Program) : Prop :=
  (∃ e, validateFlow c p = .error e ∧ FlowFault p e) ↔ Refusable c p false

/-- All outputs that are extracted somewhere, with their types. -/
def Program.declared (p : Program) : Env := p.spec.steps.foldl defines Table.empty

/-- What a step asks of the type of what it reads. -/
def Step.checkRead (s : Step) (t : ValueType) : Except String Unit :=
  match s.kind with
  | .scroll =>
    if t ≠ .integer then .error "scroll input must be an integer"
    else if s.input.source = .literal ∧
        (s.input.literal.integer = 0 ∨ s.input.literal.integer < -20 ∨
          s.input.literal.integer > 20) then
      .error "scroll input must be -20..-1 or 1..20"
    else .ok ()
  | .assert | .branch | .wait =>
    if s.predicate.op = .contains ∧ t ≠ .string then .error "contains requires a string expectation"
      else .ok ()
  | _ => .ok ()

/-- A conclude step whose outcome succeeds. -/
def Succeeds (c : Artifact) (s : Step) : Prop :=
  s.kind = .conclude ∧ ∃ o, c.outcomes.find? (fun o => o.id = s.outcome) = some o ∧
  o.kind = .success

/-- The checks of the flow that no path decides: one definition for each output, types, and a step
that succeeds. -/
structure OtherFlowChecks (c : Artifact) (p : Program) : Prop where
  definitions : validateDefinitions [] p.spec.steps = .ok ()
  types : ∀ s ∈ p.spec.steps, ∀ r t, s.reads = some r →
    refType p.spec.parameters p.declared s.id r = .ok t → s.checkRead t = .ok ()
  success : c.outputs = [] ∨ ∃ s ∈ p.spec.steps, Succeeds c s

section graph
variable {c : Artifact} {p : Program} {i j : ℕ}

lemma Goes.past (h : p.Goes false i j) : p.Goes true i j := by
  obtain ⟨hj,step,next,hi,-,hedge,he⟩ := h
  exact ⟨hj,step,next,hi,.inl rfl,hedge,he⟩

lemma otherwise_lt_length (hc : Compiled c p) {step : Step} (hi : p.spec.steps[i]? = some step)
    (hb : step.kind = .branch) :
    p.position step.otherwise < p.spec.steps.length := by
  have hlater := (hc.forward i step hi).otherwise
  have hne := hc.branch hi hb
  simp only [laterEdge,hne,decide_false,Bool.false_or,Option.any_eq_true,
    decide_eq_true_eq] at hlater
  obtain ⟨k,hk,-⟩ := hlater
  rw [Program.position,hk]
  exact hc.inside _ _ hk

/-- The graph of the check is that of runs that go on past conclude steps. -/
lemma goes_iff_mem_predecessors (hc : Compiled c p) : p.Goes true i j ↔ i ∈ p.predecessors j := by
  constructor
  · rintro ⟨hj,step,next,hi,-,hedge,rfl⟩
    refine mem_predecessors_of hi ?_
    unfold Program.successors
    by_cases hnext : next = step.next
    · subst hnext
      refine List.mem_append_left _ ?_
      change p.next i step < _ at hj
      change p.next i step ∈ _
      rw [if_pos hj]
      exact List.mem_singleton_self _
    · obtain ⟨hb,rfl⟩ := hedge.resolve_left hnext
      have hne := hc.branch hi hb
      rw [if_neg hne] at hj ⊢
      by_cases hsame : p.position step.otherwise = p.next i step
      · refine List.mem_append_left _ ?_
        rw [hsame] at hj ⊢
        rw [if_pos hj]
        exact List.mem_singleton_self _
      · refine List.mem_append_right _ ?_
        rw [if_pos ⟨hb,hsame⟩]
        exact List.mem_singleton_self _
  · intro hmem
    obtain ⟨step,hi,hsucc⟩ := mem_predecessors hmem
    unfold Program.successors at hsucc
    obtain hsucc | hsucc := List.mem_append.mp hsucc
    · split_ifs at hsucc with hlt
      · rw [List.mem_singleton] at hsucc
        subst hsucc
        exact ⟨hlt,step,step.next,hi,.inl rfl,.inl rfl,rfl⟩
      · cases hsucc
    · split_ifs at hsucc with hb
      · rw [List.mem_singleton] at hsucc
        subst hsucc
        refine ⟨otherwise_lt_length hc hi hb.1,step,step.otherwise,hi,.inl rfl,.inr ⟨hb.1,rfl⟩,?_⟩
        rw [if_neg (hc.branch hi hb.1)]
      · cases hsucc

lemma goes_lt (hc : Compiled c p) (h : p.Goes true i j) : i < j :=
  hc.predecessors_lt j i ((goes_iff_mem_predecessors hc).mp h)

/-- Every step but the first has a predecessor if and only if all are reached. -/
lemma allReached_iff (hc : Compiled c p) :
    p.AllReached true ↔ ∀ j < p.spec.steps.length, 0 < j → p.predecessors j ≠ [] := by
  refine (reaches_all_iff (fun i j h => goes_lt hc h)).trans ?_
  refine forall₃_congr (fun j hj hpos => ?_)
  constructor
  · rintro ⟨i,hi⟩
    exact List.ne_nil_of_mem ((goes_iff_mem_predecessors hc).mp hi)
  · intro hne
    obtain ⟨i,hi⟩ := List.exists_mem_of_ne_nil _ hne
    exact ⟨i,(goes_iff_mem_predecessors hc).mpr hi⟩

end graph

section analysis
variable {c : Artifact} {p : Program} {defs : List Env} {i : ℕ} {step : Step} {key : String}

/-- The analysis of the first steps, each of them reached. -/
structure Analysed (p : Program) (defs : List Env) : Prop where
  inside : defs.length ≤ p.spec.steps.length
  reached : ∀ i < defs.length, 0 < i → p.predecessors i ≠ []
  reads : ∀ i step, i < defs.length → p.spec.steps[i]? = some step →
    validateReads p.spec.parameters (incoming p defs i) step = .ok ()
  defines : ∀ i step, i < defs.length → p.spec.steps[i]? = some step →
    defs[i]? = some (defines (incoming p defs i) step)

lemma incoming_append (hc : Compiled c p) (hi : i ≤ defs.length) (more : List Env) :
    incoming p (defs ++ more) i = incoming p defs i := by
  unfold incoming
  rw [meet_append (fun j hj => (hc.predecessors_lt i j hj).trans_le hi)]

/-- The analysis goes on by one step. -/
lemma Analysed.snoc (ha : Analysed p defs) (hc : Compiled c p)
    (hstep : p.spec.steps[defs.length]? = some step)
    (hreached : 0 < defs.length → p.predecessors defs.length ≠ [])
    (hreads : validateReads p.spec.parameters (incoming p defs defs.length) step = .ok ()) :
    Analysed p (defs ++ [Workflow.defines (incoming p defs defs.length) step]) := by
  have hlt := (List.getElem?_eq_some_iff.mp hstep).1
  have hlen : (defs ++ [Workflow.defines (incoming p defs defs.length) step]).length =
    defs.length+1 := by simp
  refine ⟨by omega,?_,?_,?_⟩
  · intro i hi
    obtain hi | rfl := Nat.lt_succ_iff_lt_or_eq.mp (hlen ▸ hi)
    · exact ha.reached i hi
    · exact hreached
  · intro i step' hi hstep'
    rw [incoming_append hc (by omega)]
    obtain hi | rfl := Nat.lt_succ_iff_lt_or_eq.mp (hlen ▸ hi)
    · exact ha.reads i step' hi hstep'
    · rw [hstep] at hstep'
      cases hstep'
      exact hreads
  · intro i step' hi hstep'
    rw [incoming_append hc (by omega)]
    obtain hi | rfl := Nat.lt_succ_iff_lt_or_eq.mp (hlen ▸ hi)
    · rw [List.getElem?_append_left hi]
      exact ha.defines i step' hi hstep'
    · rw [hstep] at hstep'
      cases hstep'
      simp

/-- How the pass over the steps ends: at the last of them, or at one that is not reached or whose
reads are refused. -/
lemma definitions_cases (hc : Compiled c p) (ha : Analysed p defs) {rest : List Step}
    (hrest : p.spec.steps.drop defs.length = rest) :
    (∃ final, definitions p defs.length defs rest = .ok final ∧ Analysed p final ∧
      final.length = p.spec.steps.length) ∨
    ∃ e final step, definitions p defs.length defs rest = .error e ∧ Analysed p final ∧
      p.spec.steps[final.length]? = some step ∧
      ((0 < final.length ∧ p.predecessors final.length = [] ∧
        e = s!"step {step.id} is unreachable") ∨
      ((0 < final.length → p.predecessors final.length ≠ []) ∧
        validateReads p.spec.parameters (incoming p final final.length) step = .error e)) := by
  induction rest generalizing defs with
  | nil =>
    refine .inl ⟨defs,rfl,ha,le_antisymm ha.inside ?_⟩
    exact List.drop_eq_nil_iff.mp hrest
  | cons step rest ih =>
    have hstep : p.spec.steps[defs.length]? = some step := by
      rw [← List.head?_drop,hrest]
      rfl
    have hdrop : p.spec.steps.drop (defs.length+1) = rest := by
      rw [← List.drop_drop,hrest]
      rfl
    rw [definitions]
    by_cases hbad : 0 < defs.length ∧ p.predecessors defs.length = []
    · rw [if_pos hbad]
      exact .inr ⟨_,defs,step,rfl,ha,hstep,.inl ⟨hbad.1,hbad.2,rfl⟩⟩
    rw [if_neg hbad]
    have hreached : 0 < defs.length → p.predecessors defs.length ≠ [] :=
      fun hpos he => hbad ⟨hpos,he⟩
    change (∃ final, (validateReads p.spec.parameters
      (incoming p defs defs.length) step >>= fun _ =>
      definitions p (defs.length+1) (defs ++ [defines (incoming p defs defs.length) step]) rest) =
      .ok final ∧ _) ∨
      ∃ e final step', (validateReads p.spec.parameters
        (incoming p defs defs.length) step >>= fun _ =>
      definitions p (defs.length+1) (defs ++ [defines (incoming p defs defs.length) step]) rest) =
      .error e ∧ _
    cases hreads : validateReads p.spec.parameters (incoming p defs defs.length) step with
    | error e => exact .inr ⟨e,defs,step,rfl,ha,hstep,.inr ⟨hreached,hreads⟩⟩
    | ok u =>
      have hnext := ih (ha.snoc hc hstep hreached hreads)
      rw [List.length_append,List.length_singleton] at hnext
      exact hnext hdrop

/-- What is defined has the type of a step that extracts it. -/
def Typed (p : Program) (env : Env) : Prop := ∀ e ∈ env.entries, ∃ step ∈ p.spec.steps,
  step.kind = .extract ∧ step.output = e.1 ∧ step.outputType = e.2

section typed
variable {env env' : Env} {t t' : ValueType}

lemma Typed.get (h : Typed p env) (ht : env.get key = some t) : ∃ step ∈ p.spec.steps,
    step.kind = .extract ∧ step.output = key ∧ step.outputType = t := h _ (Table.mem_of_get ht)

lemma Typed.eq (h : Typed p env) (h' : Typed p env') (hc : Compiled c p) (ht : env.get key = some t)
    (ht' : env'.get key = some t') : t = t' := by
  obtain ⟨step,hstep,hk,hkey,rfl⟩ := h.get ht
  obtain ⟨step',hstep',hk',hkey',rfl⟩ := h'.get ht'
  rw [hc.extract_unique hstep hstep' hk hk' (hkey.trans hkey'.symm)]

lemma Typed.defines (h : Typed p env) (hstep : step ∈ p.spec.steps) :
    Typed p (Workflow.defines env step) := by
  unfold Workflow.defines
  split_ifs with hk
  · intro e he
    obtain rfl | he := List.mem_cons.mp he
    · exact ⟨step,hstep,hk,rfl,rfl⟩
    · exact h e (List.mem_filter.mp he).1
  · exact h

lemma exists_get_defines : (∃ t, (defines env step).get key = some t) ↔
    (step.kind = .extract ∧ step.output = key) ∨ ∃ t, env.get key = some t := by
  unfold defines
  split_ifs with hk
  · rw [Table.get_set]
    by_cases hkey : key = step.output
    · simp [hkey,hk]
    · simp [hkey,Ne.symm hkey]
  · simp [hk]

lemma exists_get_iff : (∃ t, env.get key = some t) ↔ key ∈ env.keys := by
  rw [← Table.isSome_get,Option.isSome_iff_exists]

/-- An output is defined where the ways meet if each of them defines it. -/
lemma exists_get_meet {preds : List ℕ} (hc : Compiled c p) (hne : preds ≠ [])
    (htyped : ∀ k ∈ preds, Typed p ((defs[k]?).getD Table.empty)) :
    (∃ t, (meet defs preds).get key = some t) ↔
      ∀ k ∈ preds, ∃ t, ((defs[k]?).getD Table.empty).get key = some t := by
  constructor
  · rintro ⟨t,ht⟩ k hk
    rw [exists_get_iff]
    exact List.mem_map.mpr ⟨_,mem_meet (Table.mem_of_get ht) hk,rfl⟩
  · intro h
    cases preds with
    | nil => exact (hne rfl).elim
    | cons first rest =>
      obtain ⟨t,ht⟩ := h first List.mem_cons_self
      rw [exists_get_iff]
      refine List.mem_map.mpr ⟨(key,t),List.mem_filter.mpr ⟨Table.mem_of_get ht,?_⟩,rfl⟩
      rw [List.all_eq_true]
      intro k hk
      have hmem := List.mem_cons_of_mem first hk
      obtain ⟨t',ht'⟩ := h k hmem
      rw [(htyped first List.mem_cons_self).eq (htyped k hmem) hc ht ht',decide_eq_true_eq]
      exact ht'

lemma Typed.meet {preds : List ℕ} (htyped : ∀ k ∈ preds, Typed p ((defs[k]?).getD Table.empty)) :
    Typed p (Workflow.meet defs preds) := by
  cases preds with
  | nil => exact fun e he => by cases he
  | cons first rest =>
    exact fun e he => htyped first List.mem_cons_self e (mem_meet he List.mem_cons_self)

end typed

/-- An output is known at a step exactly when every path there has extracted it. -/
lemma Analysed.known (ha : Analysed p defs) (hc : Compiled c p) (hi : i ≤ defs.length)
    (hreached : 0 < i → p.predecessors i ≠ []) : Typed p (incoming p defs i) ∧
      ∀ key, (∃ t, (incoming p defs i).get key = some t) ↔
      ¬ Avoids (p.Goes true) (p.Extracts key) i := by
  induction i using Nat.strong_induction_on with
  | _ i ih =>
    obtain rfl | hpos := Nat.eq_zero_or_pos i
    · refine ⟨fun e he => (by cases he),fun key => ?_⟩
      have hfirst : Avoids (p.Goes true) (p.Extracts key) 0 := .first
      simp [incoming,hfirst]
    have hpred : ∀ k ∈ p.predecessors i, ∃ step, p.spec.steps[k]? = some step ∧
      step ∈ p.spec.steps ∧
        (defs[k]?).getD Table.empty = Workflow.defines (incoming p defs k) step ∧ k < i := by
      intro k hk
      have hlt := hc.predecessors_lt i k hk
      obtain ⟨step,hstep,-⟩ := mem_predecessors hk
      refine ⟨step,hstep,List.mem_of_getElem? hstep,?_,hlt⟩
      rw [ha.defines k step (by omega) hstep,Option.getD_some]
    have hbefore : ∀ k < i, Typed p (incoming p defs k) ∧
        ∀ key, (∃ t, (incoming p defs k).get key = some t) ↔
        ¬ Avoids (p.Goes true) (p.Extracts key) k := by
      intro k hlt
      exact ih k hlt (by omega) (ha.reached k (by omega))
    have htyped : ∀ k ∈ p.predecessors i, Typed p ((defs[k]?).getD Table.empty) := by
      intro k hk
      obtain ⟨step,-,hmem,he,hlt⟩ := hpred k hk
      rw [he]
      exact (hbefore k hlt).1.defines hmem
    unfold incoming
    rw [if_neg (by omega)]
    refine ⟨Typed.meet htyped,fun key => ?_⟩
    rw [exists_get_meet hc (hreached hpos) htyped,avoids_iff hpos]
    push Not
    refine forall_congr' (fun k => ?_)
    rw [goes_iff_mem_predecessors hc]
    refine forall_congr' (fun hk => ?_)
    obtain ⟨step,hstep,-,he,hlt⟩ := hpred k hk
    rw [he,exists_get_defines,(hbefore k hlt).2]
    have hextracts : p.Extracts key k ↔ step.kind = .extract ∧ step.output = key := by
      simp [Program.Extracts,hstep]
    rw [hextracts]
    tauto

end analysis

section checks
variable {c : Artifact} {p : Program} {env : Env} {step : Step} {key e : String} {t : ValueType}

lemma validateReads_eq (params : List Parameter) (env : Env) (s : Step) :
    validateReads params env s =
    match s.reads with
    | none => .ok ()
    | some r => refType params env s.id r >>= s.checkRead := by
  unfold validateReads Step.reads Step.checkRead
  cases s.kind with
  | setValue | typeText | scroll => rfl
  | assert | branch | wait =>
    dsimp only
    split_ifs
    · rfl
    · rfl
  | _ => rfl

/-- The steps after the one that extracts an output leave its type. -/
lemma get_foldl_defines {steps : List Step} (env : Env) (hnone : ∀ s ∈ steps, s.kind = .extract →
    s.output ≠ key) :
    (steps.foldl defines env).get key = env.get key := by
  induction steps generalizing env with
  | nil => rfl
  | cons s rest ih =>
    rw [List.foldl_cons,ih _ (fun s' hs' => hnone s' (List.mem_cons_of_mem _ hs'))]
    unfold defines
    split_ifs with hk
    · exact Table.get_set_of_ne _ (hnone s List.mem_cons_self hk).symm _
    · rfl

lemma get_foldl_of_extract {steps : List Step} (env : Env)
    (hunique : steps.Pairwise (fun s t => s.kind = .extract → t.kind = .extract →
      s.output ≠ t.output))
    (hstep : step ∈ steps) (hk : step.kind = .extract) :
    (steps.foldl defines env).get step.output = some step.outputType := by
  induction steps generalizing env with
  | nil => cases hstep
  | cons s rest ih =>
    rw [List.foldl_cons]
    obtain ⟨hhead,hrest⟩ := List.pairwise_cons.mp hunique
    obtain rfl | hstep := List.mem_cons.mp hstep
    · rw [get_foldl_defines _ (fun s' hs' hk' => (hhead s' hs' hk hk').symm)]
      unfold defines
      rw [if_pos hk]
      exact Table.get_set_self _ _ _
    · exact ih _ hrest hstep

lemma Typed.declared (h : Typed p env) (hc : Compiled c p) (ht : env.get key = some t) :
    p.declared.get key = some t := by
  obtain ⟨step,hstep,hk,rfl,rfl⟩ := h.get ht
  exact get_foldl_of_extract _ hc.unique hstep hk

lemma ne_conclude_of_reads {r : Ref} (hr : step.reads = some r) : step.kind ≠ .conclude := by
  intro hk
  unfold Step.reads at hr
  rw [hk] at hr
  cases hr

/-- What a reference has where it is not known, and where it is. -/
lemma refType_cases (hc : Compiled c p) (htyped : Typed p env) (hstep : step ∈ p.spec.steps)
    {r : Ref} (hr : step.reads = some r) :
    (r.source = .output ∧ env.get r.key = none ∧ refType p.spec.parameters env step.id r =
      .error s!"step {step.id} uses output {repr r.key} before it is defined on every path") ∨
    ((r.source = .output → ∃ t, env.get r.key = some t) ∧ ∃ t,
      refType p.spec.parameters env step.id r = .ok t ∧
      refType p.spec.parameters p.declared step.id r = .ok t) := by
  obtain ⟨target,hcarried⟩ := validateStep_carried (hc.steps step hstep) (ne_conclude_of_reads hr)
  have hvalid := validateRef_of_reads hcarried.kind hr
  unfold refType
  cases hsource : r.source with
  | input => exact .inr ⟨fun h => (by cases h),_,rfl,rfl⟩
  | literal => exact .inr ⟨fun h => (by cases h),_,rfl,rfl⟩
  | output =>
    cases hget : env.get r.key with
    | none => exact .inl ⟨rfl,rfl,rfl⟩
    | some t =>
      refine .inr ⟨fun _ => ⟨t,rfl⟩,t,rfl,?_⟩
      dsimp only
      rw [htyped.declared hc hget]
  | other name =>
    unfold validateRef at hvalid
    rw [hsource] at hvalid
    split_ifs at hvalid

/-- The check of what a step reads, when types are in order. -/
lemma validateReads_cases (hc : Compiled c p) (ho : OtherFlowChecks c p) (htyped : Typed p env)
    (hstep : step ∈ p.spec.steps) :
    (validateReads p.spec.parameters env step = .ok () ∧
      ∀ r, step.reads = some r → r.source = .output → ∃ t, env.get r.key = some t) ∨
    ∃ r, step.reads = some r ∧ r.source = .output ∧ env.get r.key = none ∧
    validateReads p.spec.parameters env step =
      .error s!"step {step.id} uses output {repr r.key} before it is defined on every path" := by
  rw [validateReads_eq]
  cases hr : step.reads with
  | none => exact .inl ⟨rfl,fun r h => (by cases h)⟩
  | some r =>
    dsimp only
    obtain ⟨hsource,hget,he⟩ | ⟨hknown,t,ht,hdeclared⟩ := refType_cases hc htyped hstep hr
    · rw [he]
      exact .inr ⟨r,rfl,hsource,hget,rfl⟩
    · rw [ht]
      refine .inl ⟨ho.types step hstep r t hr hdeclared,?_⟩
      intro r' hr'
      cases hr'
      exact hknown

/-- The type of a declared output is that of the step that extracts it. -/
lemma extract_declared (hc : Compiled c p) (hstep : step ∈ p.spec.steps) (hk : step.kind = .extract)
    {d : OutputDecl}
    (hd : c.outputs.find? (fun d => d.name = step.output) = some d) : d.type = step.outputType := by
  obtain ⟨target,hcarried⟩ := validateStep_carried (hc.steps step hstep) (by simp [hk])
  have hkind := hcarried.kind
  unfold validateStepKind at hkind
  rw [hk] at hkind
  dsimp only at hkind
  rw [hd] at hkind
  split_ifs at hkind
  dsimp only at hkind
  split_ifs at hkind with htype
  exact not_not.mp htype

/-- An output that is known has its declared type. -/
lemma validateRequired_cons_of_get (hc : Compiled c p) (htyped : Typed p env) (id : String)
    (rest : List String)
    (hget : env.get key = some t) :
    validateRequired c.outputs id env (key :: rest) = validateRequired c.outputs id env rest := by
  rw [validateRequired,hget]
  dsimp only
  cases hd : c.outputs.find? (fun d => d.name = key) with
  | none => rfl
  | some d =>
    obtain ⟨step,hstep,hk,rfl,rfl⟩ := htyped.get hget
    exact if_neg (not_not.mpr (extract_declared hc hstep hk hd))

/-- The check of what an outcome requires, when types are in order. -/
lemma validateRequired_cases (hc : Compiled c p) (htyped : Typed p env) (id : String)
    (names : List String) :
    (validateRequired c.outputs id env names = .ok () ∧ ∀ name ∈ names, ∃ t,
      env.get name = some t) ∨
    ∃ name ∈ names, env.get name = none ∧
      validateRequired c.outputs id env names =
      .error s!"conclude {id} missing output {repr name} on its path" := by
  induction names with
  | nil => exact .inl ⟨rfl,fun name h => (by cases h)⟩
  | cons name rest ih =>
    cases hget : env.get name with
    | none =>
      refine .inr ⟨name,List.mem_cons_self,hget,?_⟩
      rw [validateRequired,hget]
    | some t =>
      rw [validateRequired_cons_of_get hc htyped id rest hget]
      obtain ⟨hok,hall⟩ | ⟨name',hmem,hnone,he⟩ := ih
      · refine .inl ⟨hok,?_⟩
        intro name' hmem
        obtain rfl | hmem := List.mem_cons.mp hmem
        · exact ⟨t,hget⟩
        · exact hall name' hmem
      · exact .inr ⟨name',List.mem_cons_of_mem _ hmem,hnone,he⟩

lemma find?_outcome (hc : Compiled c p) (hstep : step ∈ p.spec.steps) (hk : step.kind = .conclude) :
    ∃ o, c.outcomes.find? (fun o => o.id = step.outcome) = some o := by
  have hvalid := hc.steps step hstep
  unfold validateStep at hvalid
  rw [if_pos hk] at hvalid
  split_ifs at hvalid with htarget houtcome
  simp only [not_or,Bool.not_eq_true',Bool.not_eq_false] at houtcome
  obtain ⟨o,ho,hid⟩ := List.any_eq_true.mp houtcome.2
  exact Option.isSome_iff_exists.mp (List.find?_isSome.mpr ⟨o,ho,hid⟩)

/-- The check of the conclude steps, when types are in order. -/
lemma validateConcludes_cases {defs : List Env} (hc : Compiled c p) (i n : ℕ) (steps : List Step)
    (hsteps : ∀ k step, steps[k]? = some step → step ∈ p.spec.steps ∧
      Typed p ((defs[i+k]?).getD Table.empty)) :
    (∃ m, validateConcludes c defs i n steps = .ok m ∧ n ≤ m ∧
      ((∃ s ∈ steps, Succeeds c s) → n < m) ∧
      ∀ k step o name, steps[k]? = some step → step.kind = .conclude →
        c.outcomes.find? (fun o => o.id = step.outcome) = some o →
        name ∈ requiredOutputs c.outputs o →
        ∃ t, ((defs[i+k]?).getD Table.empty).get name = some t) ∨
    ∃ k step o name, steps[k]? = some step ∧ step.kind = .conclude ∧
      c.outcomes.find? (fun o => o.id = step.outcome) = some o ∧
      name ∈ requiredOutputs c.outputs o ∧
      ((defs[i+k]?).getD Table.empty).get name = none ∧
      validateConcludes c defs i n steps =
      .error s!"conclude {step.id} missing output {repr name} on its path" := by
  induction steps generalizing i n with
  | nil => exact .inl ⟨n,rfl,le_refl n,by simp,by simp⟩
  | cons s rest ih =>
    have hrest : ∀ k step, rest[k]? = some step → step ∈ p.spec.steps ∧
      Typed p ((defs[i+1+k]?).getD Table.empty) := by
      intro k step hk
      rw [Nat.add_right_comm,Nat.add_assoc]
      exact hsteps (k+1) step hk
    obtain ⟨hmem,htyped⟩ := hsteps 0 s rfl
    rw [Nat.add_zero] at htyped
    have hsplit : ∀ k, i+1+k = i+(k+1) := by omega
    rw [validateConcludes]
    by_cases hk : s.kind = .conclude
    · rw [if_neg (not_not.mpr hk)]
      obtain ⟨o,hfind⟩ := find?_outcome hc hmem hk
      rw [hfind]
      dsimp only
      obtain ⟨hok,hall⟩ | ⟨name,hname,hnone,he⟩ :=
        validateRequired_cases hc htyped s.id (requiredOutputs c.outputs o)
      · rw [hok]
        obtain ⟨m,hm,hle,hsucc,hdefined⟩ | ⟨k,step,o',name,hstep,hrest⟩ :=
          ih (i+1) (if o.kind = .success then n+1 else n) hrest
        · refine .inl ⟨m,hm,?_,?_,?_⟩
          · split_ifs at hle
            · omega
            · exact hle
          · rintro ⟨s',hs',hsuccess⟩
            obtain rfl | hs' := List.mem_cons.mp hs'
            · obtain ⟨-,o',hfind',hkind⟩ := hsuccess
              rw [hfind] at hfind'
              cases hfind'
              rw [if_pos hkind] at hle
              omega
            · have := hsucc ⟨s',hs',hsuccess⟩
              split_ifs at this
              · omega
              · exact this
          · intro k step o' name hstep hconclude hfind' hname
            cases k with
            | zero =>
              cases hstep
              rw [hfind] at hfind'
              cases hfind'
              exact hall name hname
            | succ k =>
              rw [← hsplit]
              exact hdefined k step o' name hstep hconclude hfind' hname
        · refine .inr ⟨k+1,step,o',name,hstep,?_⟩
          rw [← hsplit]
          exact hrest
      · rw [he]
        exact .inr ⟨0,s,o,name,rfl,hk,hfind,hname,hnone,rfl⟩
    · rw [if_pos hk]
      obtain ⟨m,hm,hle,hsucc,hdefined⟩ | ⟨k,step,o',name,hstep,hrest⟩ := ih (i+1) n hrest
      · refine .inl ⟨m,hm,hle,?_,?_⟩
        · rintro ⟨s',hs',hsuccess⟩
          obtain rfl | hs' := List.mem_cons.mp hs'
          · exact (hk hsuccess.1).elim
          · exact hsucc ⟨s',hs',hsuccess⟩
        · intro k step o' name hstep hconclude hfind' hname
          cases k with
          | zero =>
            cases hstep
            exact (hk hconclude).elim
          | succ k =>
            rw [← hsplit]
            exact hdefined k step o' name hstep hconclude hfind' hname
      · refine .inr ⟨k+1,step,o',name,hstep,?_⟩
        rw [← hsplit]
        exact hrest

end checks

section answers
variable {c : Artifact} {p : Program} {defs : List Env} {i : ℕ} {step : Step} {key e : String}

lemma Analysed.nil (p : Program) : Analysed p [] := by
  refine ⟨Nat.zero_le _,?_,?_,?_⟩
  · intro i hi
    cases hi
  · intro i step hi
    cases hi
  · intro i step hi
    cases hi

/-- The pass over the steps stops at a fault of the graph. -/
lemma Analysed.stopped (ha : Analysed p defs) (hc : Compiled c p) (ho : OtherFlowChecks c p)
    (hstep : p.spec.steps[defs.length]? = some step)
    (hstop : (0 < defs.length ∧ p.predecessors defs.length = [] ∧
      e = s!"step {step.id} is unreachable") ∨
      ((0 < defs.length → p.predecessors defs.length ≠ []) ∧
        validateReads p.spec.parameters (incoming p defs defs.length) step = .error e)) :
    FlowFault p e ∧ Refusable c p true := by
  have hlt := (List.getElem?_eq_some_iff.mp hstep).1
  have hmem := List.mem_of_getElem? hstep
  obtain ⟨hpos,hnone,rfl⟩ | ⟨hreached,hreads⟩ := hstop
  · exact ⟨⟨step,hmem,.inl rfl⟩,.inl (fun hall => (allReached_iff hc).mp hall _ hlt hpos hnone)⟩
  · obtain ⟨htyped,hknown⟩ := ha.known hc (le_refl _) hreached
    obtain ⟨hok,-⟩ | ⟨r,hr,hsource,hget,he⟩ := validateReads_cases hc ho htyped hmem
    · rw [hok] at hreads
      cases hreads
    · rw [he] at hreads
      cases hreads
      refine ⟨⟨step,hmem,.inr (.inl ⟨r.key,rfl⟩)⟩,
        .inr ⟨_,step,r.key,hstep,.inl ⟨r,hr,hsource,rfl⟩,?_⟩⟩
      refine not_not.mp (mt (hknown r.key).mpr ?_)
      rw [hget]
      simp

lemma Analysed.typed (ha : Analysed p defs) (hc : Compiled c p) (hi : i < defs.length)
    (hstep : p.spec.steps[i]? = some step) : Typed p ((defs[i]?).getD Table.empty) := by
  rw [ha.defines i step hi hstep,Option.getD_some]
  exact (ha.known hc hi.le (ha.reached i hi)).1.defines (List.mem_of_getElem? hstep)

/-- What is known where a conclude step ends the run. -/
lemma Analysed.concluding (ha : Analysed p defs) (hc : Compiled c p) (hi : i < defs.length)
    (hstep : p.spec.steps[i]? = some step) (hk : step.kind = .conclude) :
    (∃ t, ((defs[i]?).getD Table.empty).get key = some t) ↔
    ¬ Avoids (p.Goes true) (p.Extracts key) i := by
  rw [ha.defines i step hi hstep,Option.getD_some,exists_get_defines,
    (ha.known hc hi.le (ha.reached i hi)).2]
  simp [hk]

/-- What a full analysis has not refused, no path leads to undefined. -/
lemma Analysed.reads_defined (ha : Analysed p defs) (hc : Compiled c p) (ho : OtherFlowChecks c p)
    (hi : i < defs.length)
    (hstep : p.spec.steps[i]? = some step) {r : Ref} (hr : step.reads = some r)
    (hsource : r.source = .output) :
    ¬ Avoids (p.Goes true) (p.Extracts r.key) i := by
  obtain ⟨htyped,hknown⟩ := ha.known hc hi.le (ha.reached i hi)
  obtain ⟨-,hall⟩ | ⟨r',hr',-,-,he⟩ := validateReads_cases hc ho htyped (List.mem_of_getElem? hstep)
  · exact (hknown r.key).mp (hall r hr hsource)
  · rw [ha.reads i step hi hstep] at he
    cases he

/-- The flow check answers for its own graph. -/
lemma validateFlow_cases (hc : Compiled c p) (ho : OtherFlowChecks c p) :
    (validateFlow c p = .ok () ∧ ¬ Refusable c p true) ∨ ∃ e, validateFlow c p = .error e ∧
    FlowFault p e ∧ Refusable c p true := by
  have hflow : validateFlow c p = (definitions p 0 [] p.spec.steps >>= fun defs =>
      if c.outputs = [] ∧ c.outcomes = [] then .ok ()
      else validateConcludes c defs 0 0 p.spec.steps >>= fun successPaths =>
        if c.outputs ≠ [] ∧ successPaths = 0 then
          .error "declared outputs require a success conclude path" else .ok ()) := by
    unfold validateFlow
    rw [ho.definitions]
    rfl
  rw [hflow]
  obtain ⟨final,hfinal,ha,hlen⟩ | ⟨e,final,step,he,ha,hstep,hstop⟩ :=
    definitions_cases hc (Analysed.nil p) (List.drop_zero)
  swap
  · rw [List.length_nil] at he
    rw [he]
    exact .inr ⟨e,rfl,ha.stopped hc ho hstep hstop⟩
  rw [List.length_nil] at hfinal
  rw [hfinal]
  have hin : ∀ {i step}, p.spec.steps[i]? = some step → i < final.length := by
    intro i step hi
    rw [hlen]
    exact (List.getElem?_eq_some_iff.mp hi).1
  have hreached : p.AllReached true := by
    rw [allReached_iff hc,← hlen]
    exact ha.reached
  have hdefined : (∀ i step o name, p.spec.steps[i]? = some step → step.kind = .conclude →
      c.outcomes.find? (fun o => o.id = step.outcome) = some o →
      name ∈ requiredOutputs c.outputs o →
      ¬ Avoids (p.Goes true) (p.Extracts name) i) → ¬ Refusable c p true := by
    rintro hconcludes (hnot | ⟨i,step,key,hi,⟨r,hr,hsource,rfl⟩ | ⟨hk,o,ho',hkey⟩,havoids⟩)
    · exact hnot hreached
    · exact ha.reads_defined hc ho (hin hi) hi hr hsource havoids
    · exact hconcludes i step o key hi hk ho' hkey havoids
  change (_ = Except.ok () ∧ _) ∨ _
  by_cases hnone : c.outputs = [] ∧ c.outcomes = []
  · refine .inl ⟨if_pos hnone,hdefined ?_⟩
    intro i step o name hi hk hfind
    rw [hnone.2] at hfind
    cases hfind
  have hok : (Except.ok final >>= fun defs => if c.outputs = [] ∧ c.outcomes = [] then Except.ok ()
      else validateConcludes c defs 0 0 p.spec.steps >>= fun successPaths =>
        if c.outputs ≠ [] ∧ successPaths = 0 then
          .error "declared outputs require a success conclude path" else .ok ()) =
      (validateConcludes c final 0 0 p.spec.steps >>= fun successPaths =>
        if c.outputs ≠ [] ∧ successPaths = 0 then
          .error "declared outputs require a success conclude path" else .ok ()) :=
    if_neg hnone
  rw [hok]
  obtain ⟨m,hm,-,hsuccess,hall⟩ | ⟨k,step,o,name,hk,hconclude,hfind,hname,hget,he⟩ :=
    validateConcludes_cases hc 0 0 p.spec.steps
    (fun k step hk => ⟨List.mem_of_getElem? hk,Nat.zero_add k ▸ ha.typed hc (hin hk) hk⟩)
  · rw [hm]
    refine .inl ⟨if_neg ?_,hdefined ?_⟩
    · rintro ⟨hne,rfl⟩
      have := hsuccess (ho.success.resolve_left hne)
      omega
    · intro i step o name hi hk hfind hname
      refine (ha.concluding hc (hin hi) hi hk).mp ?_
      have := hall i step o name hi hk hfind hname
      rwa [Nat.zero_add] at this
  · rw [he]
    rw [Nat.zero_add] at hget
    refine .inr ⟨_,rfl,⟨step,List.mem_of_getElem? hk,.inr (.inr ⟨name,rfl⟩)⟩,.inr ⟨k,step,name,hk,
      .inr ⟨hconclude,o,hfind,hname⟩,?_⟩⟩
    refine not_not.mp (mt (ha.concluding hc (hin hk) hk hconclude).mpr ?_)
    rw [hget]
    simp

lemma AllReached.past (h : p.AllReached false) : p.AllReached true :=
  fun i hi => (h i hi).mono (fun _ _ => Goes.past)

lemma UndefinedUse.past (h : UndefinedUse c p false) : UndefinedUse c p true := by
  obtain ⟨i,step,key,hi,huse,havoids⟩ := h
  exact ⟨i,step,key,hi,huse,havoids.mono (fun _ _ => Goes.past)⟩

/-- From a step that does not conclude, a run moves along the graph. -/
theorem Move.goes {s t : State} {event : Event} {inputs : Table String Value} {cmds : List Command}
    (h : Move p s step event inputs t cmds) (here : p.spec.steps[s.stepIndex]? = some step)
    (hk : step.kind ≠ .conclude) :
    t.terminal = true ∨ t.stepIndex = s.stepIndex ∨ p.Goes false s.stepIndex t.stepIndex := by
  cases h with
  | halt phase => exact .inl (terminal_of_ended phase)
  | startConclude | conclude => exact .inl (terminal_finishConclude _ _ _)
  | complete _ _ _ _ _ _ phase => exact .inl (by simp [State.terminal,phase])
  | enter _ _ next edge _ into there _ _ _ keeps =>
    have hindex : t.stepIndex = nextIndex p s next := keeps.stepIndex
    rw [hindex]
    exact .inr (.inr ⟨(List.getElem?_eq_some_iff.mp there).1,step,next,here,.inr hk,edge,rfl⟩)
  | start => exact .inr (.inl rfl)
  | pause _ keeps | resume _ _ _ keeps | again _ _ keeps | recover _ _ _ _ _ _ _ _ _ keeps
      | ask _ _ _ _ _ keeps
  | act _ _ _ _ _ keeps | approve _ _ _ _ keeps | recovered _ _ _ _ _ keeps
      | delivered _ _ _ _ _ keeps
  | refused _ _ _ _ _ _ _ _ keeps | retried _ _ _ _ _ _ _ _ keeps | withdraw _ _ _ _ keeps =>
    exact .inr (.inl keeps.stepIndex)

/-- The flow check is exact just when going on past conclude steps makes no difference to the graph:
no way past one leads to a use of an output that no other way leads to undefined, and none is what a
step is reached by. -/
theorem flow_exact_iff {validateAnchor : VisualAnchor → Except String Unit} {digest : String}
    (hc : compileChecked validateAnchor digest c = .ok p) (ho : OtherFlowChecks c p) :
    FlowExact c p ↔
      (p.AllReached false → UndefinedUse c p true → UndefinedUse c p false) ∧
      (¬ p.AllReached false → ¬ p.AllReached true ∨ UndefinedUse c p true) := by
  have hrefuses : (∃ e, validateFlow c p = .error e ∧ FlowFault p e) ↔ Refusable c p true := by
    obtain ⟨hok,hnot⟩ | ⟨e,he,hfault,hbad⟩ :=
      validateFlow_cases (compiled_of_checked hc ho.definitions) ho
    · simp [hok,hnot]
    · exact ⟨fun _ => hbad,fun _ => ⟨e,he,hfault⟩⟩
  unfold FlowExact
  rw [hrefuses]
  unfold Refusable
  have hreached : p.AllReached false → p.AllReached true := AllReached.past
  have hused : UndefinedUse c p false → UndefinedUse c p true := UndefinedUse.past
  tauto

end answers

/-- A capability with one outcome, and its conclude step. -/
def endedArtifact (steps : List Step) : Artifact :=
  { simpleArtifact steps [] with
    toCapability := { (simpleArtifact steps []).toCapability with
      outcomes := [⟨"end",.business,[]⟩] } }

def endStep : Step := ⟨"stop",.conclude,"",.none,Ref.zero,Predicate.zero,"",.absent,"","end","",""⟩

/-- The program of two steps that the compiler has before it checks the flow. -/
def endedProgram (first second : Step) : Program :=
  ⟨"digest",(endedArtifact [first,second]).toCapability,
    (Table.empty.set first.id 0).set second.id 1⟩

lemma check_or_end {first second s : Step} (hfirst : first = checkStep ∨ first = endStep)
    (hsecond : second = checkStep ∨ second = endStep) (hs : s ∈ [first,second]) :
    s.kind ≠ .extract ∧ s.reads = none := by
  have hs : s = checkStep ∨ s = endStep := by
    obtain rfl | hs := List.mem_cons.mp hs
    · exact hfirst
    · rw [List.mem_singleton.mp hs]
      exact hsecond
  obtain rfl | rfl := hs
  · exact ⟨by decide,rfl⟩
  · exact ⟨by decide,rfl⟩

lemma endedArtifact_otherChecks {first second : Step} (hfirst : first = checkStep ∨ first = endStep)
    (hsecond : second = checkStep ∨ second = endStep) :
    OtherFlowChecks (endedArtifact [first,second]) (endedProgram first second) := by
  refine ⟨?_,?_,.inl rfl⟩
  · change validateDefinitions [] [first,second] = .ok ()
    rw [validateDefinitions,if_neg (check_or_end hfirst hsecond List.mem_cons_self).1,
      validateDefinitions,
      if_neg (check_or_end hfirst hsecond (List.mem_cons_of_mem _ List.mem_cons_self)).1,
      validateDefinitions]
  · intro s hs r t hr
    rw [(check_or_end hfirst hsecond hs).2] at hr
    cases hr

/-- The check is exact of a run that ends at its last step. -/
theorem flow_exact_endedArtifact :
    compileChecked (fun _ => .ok ()) "digest" (endedArtifact [checkStep,endStep]) = .ok
    (endedProgram checkStep endStep) ∧
    OtherFlowChecks (endedArtifact [checkStep,endStep]) (endedProgram checkStep endStep) ∧
    FlowExact (endedArtifact [checkStep,endStep]) (endedProgram checkStep endStep) := by
  have hc : compileChecked (fun _ => .ok ()) "digest" (endedArtifact [checkStep,endStep]) = .ok
    (endedProgram checkStep endStep) := by
    rfl
  have ho := endedArtifact_otherChecks (.inl rfl) (.inr rfl)
  refine ⟨hc,ho,(flow_exact_iff hc ho).mpr ⟨?_,?_⟩⟩
  · rintro - ⟨i,step,key,hi,⟨r,hr,-⟩ | ⟨-,o,hfind,hkey⟩,-⟩
    · rw [(check_or_end (.inl rfl) (.inr rfl) (List.mem_of_getElem? hi)).2] at hr
      cases hr
    · have ho := List.mem_singleton.mp (List.mem_of_find?_eq_some hfind)
      subst ho
      cases hkey
  · intro hnot
    refine (hnot ?_).elim
    intro i hi
    obtain rfl | rfl : i = 0 ∨ i = 1 := by
      have : i < 2 := hi
      omega
    · exact .first
    · exact .step .first not_false ⟨hi,checkStep,"",rfl,.inr (by decide),.inl rfl,rfl⟩

/-- A capability whose first step ends the run passes all checks, though its second step is never
reached. -/
theorem conclude_falls_through :
    compileChecked (fun _ => .ok ()) "digest" (endedArtifact [endStep,checkStep]) = .ok
    (endedProgram endStep checkStep) ∧
    OtherFlowChecks (endedArtifact [endStep,checkStep]) (endedProgram endStep checkStep) ∧
    validateFlow (endedArtifact [endStep,checkStep]) (endedProgram endStep checkStep) = .ok () ∧
    ¬ (endedProgram endStep checkStep).AllReached false ∧
    ¬ FlowExact (endedArtifact [endStep,checkStep]) (endedProgram endStep checkStep) := by
  have hc : compileChecked (fun _ => .ok ()) "digest" (endedArtifact [endStep,checkStep]) = .ok
    (endedProgram endStep checkStep) := by
    rfl
  have ho := endedArtifact_otherChecks (.inr rfl) (.inl rfl)
  have hok : validateFlow (endedArtifact [endStep,checkStep]) (endedProgram endStep checkStep) = .ok
    () := by
    rfl
  have hnot : ¬ (endedProgram endStep checkStep).AllReached false := by
    intro hall
    obtain ⟨i,hgoes,-⟩ := (avoids_iff Nat.one_pos).mp (hall 1 (by decide))
    have hlt := goes_lt (compiled_of_checked hc ho.definitions) (Goes.past hgoes)
    obtain rfl : i = 0 := by omega
    obtain ⟨-,step,next,hi,hk,-⟩ := hgoes
    cases hi
    exact hk.elim (fun h => (by cases h)) (fun h => h rfl)
  refine ⟨hc,ho,hok,hnot,fun hexact => ?_⟩
  obtain ⟨e,he,-⟩ := hexact.mpr (.inl hnot)
  rw [hok] at he
  cases he

end Manvi.Workflow
