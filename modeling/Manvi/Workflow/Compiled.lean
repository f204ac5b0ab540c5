import Manvi.Workflow.Approval

/-! What holds of every program that the compiler lets through. -/
namespace Manvi.Workflow
open Manvi.Encoding

lemma refuse_ok {bad : Prop} [Decidable bad] {reason : String} (h : refuse bad reason = .ok ()) :
    ¬ bad := by
  unfold refuse at h
  split_ifs at h with hbad
  exact hbad

section
variable {c : Artifact}

/-- The positions after some steps: those before, and one for each step. -/
structure Positioned (c : Artifact) (i : ℕ) (before after : Table String ℕ)
    (steps : List Step) : Prop where
  valid : ∀ step ∈ steps, namePattern step.id = true ∧ validateStep c step = .ok ()
  kept : ∀ name j, before.get name = some j → after.get name = some j
  set : ∀ k step, steps[k]? = some step → after.get step.id = some (i+k)
  found : ∀ name j, after.get name = some j → before.get name = some j ∨
    ∃ k step, steps[k]? = some step ∧ step.id = name ∧ j = i+k

lemma validateSteps_positioned {i : ℕ} {before after : Table String ℕ} {steps : List Step}
    (h : validateSteps c i before steps = .ok after) : Positioned c i before after steps := by
  induction steps generalizing i before with
  | nil =>
    cases h
    exact ⟨by simp,fun _ _ h => h,by simp,fun _ _ h => .inl h⟩
  | cons s rest ih =>
    rw [validateSteps] at h
    split_ifs at h with hname hdup
    obtain ⟨⟨⟩,hvalid,h⟩ := bind_ok h
    have hrest := ih h
    have hfree : before.get s.id = none := by simpa using hdup
    refine ⟨?_,?_,?_,?_⟩
    · intro step hstep
      rcases List.mem_cons.mp hstep with rfl | hstep
      · exact ⟨by simpa using hname,hvalid⟩
      · exact hrest.valid step hstep
    · intro name j hj
      apply hrest.kept
      rw [Table.get_set_of_ne]
      · exact hj
      · rintro rfl
        rw [hfree] at hj
        cases hj
    · intro k step hk
      cases k with
      | zero =>
        cases hk
        exact hrest.kept _ _ (Table.get_set_self _ _ _)
      | succ k =>
        rw [hrest.set k step hk]
        congr 1
        omega
    · intro name j hj
      rcases hrest.found name j hj with hset | ⟨k,step,hk,hid,rfl⟩
      · rw [Table.get_set] at hset
        split_ifs at hset with hid
        · cases hset
          exact .inr ⟨0,s,rfl,hid.symm,rfl⟩
        · exact .inl hset
      · exact .inr ⟨k+1,step,hk,hid,by omega⟩

/-- Edges lead on, and only a branch has two. -/
structure Forward (positions : Table String ℕ) (i : ℕ) (step : Step) : Prop where
  next : laterEdge positions i step.next = true
  otherwise : laterEdge positions i step.otherwise = true
  branch : step.kind = .branch ∨ step.otherwise = ""

lemma validateEdges_forward {positions : Table String ℕ} {i k : ℕ} {steps : List Step}
    (h : validateEdges positions i steps = .ok ()) {step : Step} (hk : steps[k]? = some step) :
    Forward positions (i+k) step := by
  induction steps generalizing i k with
  | nil => cases hk
  | cons s rest ih =>
    rw [validateEdges] at h
    split_ifs at h with hlater hbranch
    cases k with
    | zero =>
      cases hk
      refine ⟨by simp at hlater; exact hlater.1,by simp at hlater; exact hlater.2,?_⟩
      by_cases hb : step.kind = .branch
      · exact .inl hb
      · exact .inr (by_contra fun ho => hbranch ⟨hb,ho⟩)
    | succ k =>
      have hrest := ih h hk
      rwa [Nat.add_right_comm,Nat.add_assoc] at hrest

lemma validateDefinitions_unique {seen : List String} {steps : List Step}
    (h : validateDefinitions seen steps = .ok ()) :
    steps.Pairwise (fun s t => s.kind = .extract → t.kind = .extract → s.output ≠ t.output) ∧
      ∀ s ∈ steps, s.kind = .extract → s.output ∉ seen := by
  induction steps generalizing seen with
  | nil => exact ⟨.nil,by simp⟩
  | cons s rest ih =>
    rw [validateDefinitions] at h
    by_cases hs : s.kind = .extract
    · rw [if_pos hs] at h
      split_ifs at h with hseen hmoney
      obtain ⟨hp,hnot⟩ := ih h
      refine ⟨.cons ?_ hp,?_⟩
      · intro t ht _ hte heq
        exact hnot t ht hte (heq ▸ List.mem_cons_self)
      · intro t ht hte
        rcases List.mem_cons.mp ht with rfl | ht
        · exact hseen
        · exact fun hmem => hnot t ht hte (List.mem_cons_of_mem _ hmem)
    · rw [if_neg hs] at h
      obtain ⟨hp,hnot⟩ := ih h
      refine ⟨.cons (fun t _ hse => (hs hse).elim) hp,?_⟩
      intro t ht hte
      rcases List.mem_cons.mp ht with rfl | ht
      · exact (hs hte).elim
      · exact hnot t ht hte

lemma validateRecoveries_unique {params : List Parameter} {targets : Table String Selector}
    {seen : List String}
    {recoveries : List Recovery} (h : validateRecoveries params targets seen recoveries = .ok ()) :
    (recoveries.map Recovery.id).Nodup ∧ ∀ r ∈ recoveries, r.id ∉ seen ∧ r.id ≠ "" ∧ 1 ≤ r.max := by
  induction recoveries generalizing seen with
  | nil => exact ⟨.nil,by simp⟩
  | cons r rest ih =>
    rw [validateRecoveries] at h
    split_ifs at h with hname hwhen hkind htarget hmax
    split at h
    · cases h
    obtain ⟨hn,hall⟩ := ih h
    have hnot := not_or.mp hname
    have hempty : r.id ≠ "" := by
      intro he
      rw [he] at hnot
      exact hnot.1 (by decide)
    refine ⟨?_,?_⟩
    · rw [List.map_cons,List.nodup_cons]
      refine ⟨?_,hn⟩
      intro hmem
      obtain ⟨q,hq,hid⟩ := List.mem_map.mp hmem
      exact (hall q hq).1 (hid ▸ List.mem_cons_self)
    · intro q hq
      rcases List.mem_cons.mp hq with rfl | hq
      · exact ⟨hnot.2,hempty,by omega⟩
      · obtain ⟨h1,h2⟩ := hall q hq
        exact ⟨fun hmem => h1 (List.mem_cons_of_mem _ hmem),h2⟩

end

/-- What is defined at the entry of a step. -/
def incoming (p : Program) (defs : List Env) (i : ℕ) : Env :=
  if i = 0 then Table.empty else meet defs (p.predecessors i)

lemma meet_append {defs more : List Env} {preds : List ℕ} (h : ∀ i ∈ preds, i < defs.length) :
    meet (defs ++ more) preds = meet defs preds := by
  cases preds with
  | nil => rfl
  | cons first rest =>
    have hfirst : (defs ++ more)[first]? = defs[first]? :=
      List.getElem?_append_left (h first List.mem_cons_self)
    have hrest : ∀ e : String × ValueType,
      rest.all (fun pred => (((defs ++ more)[pred]?).getD Table.empty).get e.1 = some e.2) =
        rest.all (fun pred => ((defs[pred]?).getD Table.empty).get e.1 = some e.2) := by
      intro e
      rw [Bool.eq_iff_iff,List.all_eq_true,List.all_eq_true]
      apply forall₂_congr
      intro pred hpred
      rw [List.getElem?_append_left (h pred (List.mem_cons_of_mem _ hpred))]
    simp only [meet,hfirst,hrest]

/-- The analysis of a program: what is defined after each step, from what its predecessors
define. -/
structure Flow (p : Program) (defs : List Env) : Prop where
  length : defs.length = p.spec.steps.length
  reads : ∀ i step, p.spec.steps[i]? = some step →
    validateReads p.spec.parameters (incoming p defs i) step = .ok ()
  defines : ∀ i step, p.spec.steps[i]? = some step →
    defs[i]? = some (defines (incoming p defs i) step)

lemma definitions_flow {p : Program} (hpred : ∀ i, ∀ j ∈ p.predecessors i, j < i) (defs : List Env)
    {final : List Env}
    {rest : List Step} (h : definitions p defs.length defs rest = .ok final) :
    (∃ more, final = defs ++ more ∧ more.length = rest.length) ∧
    ∀ k step, rest[k]? = some step →
      validateReads p.spec.parameters (incoming p final (defs.length+k)) step = .ok () ∧
      final[defs.length+k]? = some (defines (incoming p final (defs.length+k)) step) := by
  induction rest generalizing defs with
  | nil =>
    cases h
    exact ⟨⟨[],by simp,rfl⟩,by simp⟩
  | cons s rest ih =>
    rw [definitions] at h
    by_cases hunreachable : 0 < defs.length ∧ p.predecessors defs.length = []
    · rw [if_pos hunreachable] at h
      cases h
    rw [if_neg hunreachable] at h
    dsimp only at h
    obtain ⟨⟨⟩,hreads,h⟩ := bind_ok h
    have hlen : (defs ++ [defines (if defs.length = 0 then
      Table.empty else meet defs (p.predecessors defs.length)) s]).length
        = defs.length+1 := by simp
    rw [← hlen] at h
    obtain ⟨⟨more,rfl,hmore⟩,hsteps⟩ := ih _ h
    have hincoming : ∀ tail, incoming p (defs ++ tail) defs.length =
        if defs.length = 0 then Table.empty else meet defs (p.predecessors defs.length) := by
      intro tail
      unfold incoming
      rw [meet_append (fun i hi => hpred _ i hi)]
    refine ⟨⟨_,List.append_assoc _ _ _,by simp [hmore]⟩,?_⟩
    intro k step hk
    cases k with
    | zero =>
      cases hk
      rw [List.append_assoc,Nat.add_zero,hincoming]
      refine ⟨hreads,?_⟩
      rw [List.getElem?_append_right (le_refl _)]
      simp
    | succ k =>
      have hstep := hsteps k step hk
      rw [hlen] at hstep
      rwa [Nat.add_right_comm,Nat.add_assoc] at hstep

lemma validateRequired_ok {decls : List OutputDecl} {id : String} {available : Env}
    {names : List String}
    (h : validateRequired decls id available names = .ok ()) {name : String} (hn : name ∈ names) :
    ∃ t, available.get name = some t ∧ ∀ d, decls.find? (fun d => d.name = name) = some d →
    d.type = t := by
  induction names with
  | nil => cases hn
  | cons head rest ih =>
    rw [validateRequired] at h
    cases ht : available.get head with
    | none =>
      rw [ht] at h
      cases h
    | some t =>
      rw [ht] at h
      dsimp only at h
      have hboth : validateRequired decls id available rest = .ok () ∧
          ∀ d, decls.find? (fun d => d.name = head) = some d → d.type = t := by
        split at h
        · rename_i hd
          refine ⟨h,?_⟩
          intro d hd'
          rw [hd] at hd'
          cases hd'
        · rename_i decl hd
          split_ifs at h with htype
          refine ⟨h,?_⟩
          intro d hd'
          rw [hd] at hd'
          cases hd'
          exact not_not.mp htype
      rcases List.mem_cons.mp hn with rfl | hn
      · exact ⟨t,ht,hboth.2⟩
      · exact ih hboth.1 hn

/-- A conclude step has a declared outcome, and what that outcome requires. -/
lemma validateConcludes_ok {c : Artifact} {defs : List Env} {i n m k : ℕ} {steps : List Step}
    (h : validateConcludes c defs i n steps = .ok m) {step : Step} (hk : steps[k]? = some step)
    (hc : step.kind = .conclude) :
    ∃ outcome, c.outcomes.find? (fun o => o.id = step.outcome) = some outcome ∧
      validateRequired c.outputs step.id ((defs[i+k]?).getD Table.empty)
      (requiredOutputs c.outputs outcome) = .ok () := by
  induction steps generalizing i n k with
  | nil => cases hk
  | cons s rest ih =>
    rw [validateConcludes] at h
    by_cases hs : s.kind = .conclude
    · rw [if_neg (not_not.mpr hs)] at h
      split at h
      · cases h
      · rename_i outcome hfind
        obtain ⟨⟨⟩,hreq,h⟩ := bind_ok h
        cases k with
        | zero =>
          cases hk
          exact ⟨outcome,hfind,hreq⟩
        | succ k =>
          have hrest := ih h hk
          rwa [Nat.add_right_comm,Nat.add_assoc] at hrest
    · rw [if_pos hs] at h
      cases k with
      | zero =>
        cases hk
        exact (hs hc).elim
      | succ k =>
        have hrest := ih h hk
        rwa [Nat.add_right_comm,Nat.add_assoc] at hrest

lemma validateOutputs_currency {seen : List String} {decls : List OutputDecl}
    (h : validateOutputs seen decls = .ok ()) :
    (decls.map OutputDecl.name).Nodup ∧
      ∀ d ∈ decls, d.name ∉ seen ∧ d.type.supported = true ∧
      (d.type ≠ .money → d.currency = "") := by
  induction decls generalizing seen with
  | nil => exact ⟨.nil,by simp⟩
  | cons d rest ih =>
    rw [validateOutputs] at h
    split_ifs at h with hname htype hmoney hcurrency
    obtain ⟨hn,hall⟩ := ih h
    refine ⟨?_,?_⟩
    · rw [List.map_cons,List.nodup_cons]
      refine ⟨?_,hn⟩
      intro hmem
      obtain ⟨q,hq,hid⟩ := List.mem_map.mp hmem
      exact (hall q hq).1 (hid ▸ List.mem_cons_self)
    · intro q hq
      rcases List.mem_cons.mp hq with rfl | hq
      · refine ⟨(not_or.mp hname).2,by simpa using htype,?_⟩
        intro hne
        by_contra hcur
        exact hcurrency ⟨hne,hcur⟩
      · obtain ⟨h1,h2⟩ := hall q hq
        exact ⟨fun hmem => h1 (List.mem_cons_of_mem _ hmem),h2⟩

/-- What the compiler promises of a program. -/
structure Compiled (c : Artifact) (p : Program) : Prop where
  spec : p.spec = c.toCapability
  nonempty : p.spec.steps ≠ []
  limits : 1 ≤ p.spec.limits.maxActions ∧ 1 ≤ p.spec.limits.observationAttempts
  names : ∀ step ∈ p.spec.steps, namePattern step.id = true
  steps : ∀ step ∈ p.spec.steps, validateStep c step = .ok ()
  position : ∀ i step, p.spec.steps[i]? = some step → p.positions.get step.id = some i
  inside : ∀ name i, p.positions.get name = some i → i < p.spec.steps.length
  forward : ∀ i step, p.spec.steps[i]? = some step → Forward p.positions i step
  recoveries : (p.spec.recoveries.map Recovery.id).Nodup ∧ ∀ r ∈ p.spec.recoveries, r.id ≠ "" ∧
    1 ≤ r.max
  unique : p.spec.steps.Pairwise (fun s t => s.kind = .extract → t.kind = .extract →
    s.output ≠ t.output)
  outputs : (c.outputs.map OutputDecl.name).Nodup ∧
    ∀ d ∈ c.outputs, d.type.supported = true ∧ (d.type ≠ .money → d.currency = "")

section
variable {c : Artifact} {p : Program}

lemma Forward.next_lt {positions : Table String ℕ} {i : ℕ} {step : Step}
    (h : Forward positions i step)
    (p : Program) (hp : p.positions = positions) : i < p.next i step := by
  unfold Program.next
  by_cases hn : step.next = ""
  · rw [if_pos hn]
    omega
  · rw [if_neg hn]
    have hlater := h.next
    simp only [laterEdge,hn,decide_false,Bool.false_or,Option.any_eq_true,
      decide_eq_true_eq] at hlater
    obtain ⟨j,hj,hlt⟩ := hlater
    rw [Program.position,hp,hj]
    exact hlt

lemma Forward.otherwise_lt {positions : Table String ℕ} {i : ℕ} {step : Step}
    (h : Forward positions i step)
    (p : Program) (hp : p.positions = positions) (ho : step.otherwise ≠ "") :
    i < p.position step.otherwise := by
  have hlater := h.otherwise
  simp only [laterEdge,ho,decide_false,Bool.false_or,Option.any_eq_true,decide_eq_true_eq] at hlater
  obtain ⟨j,hj,hlt⟩ := hlater
  rw [Program.position,hp,hj]
  exact hlt

lemma mem_predecessors {i j : ℕ} (h : j ∈ p.predecessors i) :
    ∃ step, p.spec.steps[j]? = some step ∧ i ∈ p.successors j step := by
  unfold Program.predecessors at h
  obtain ⟨⟨step,k⟩,he,rfl⟩ := List.mem_map.mp h
  obtain ⟨hmem,hsucc⟩ := List.mem_filter.mp he
  exact ⟨step,List.mem_zipIdx_iff_getElem?.mp hmem,by simpa using hsucc⟩

lemma mem_predecessors_of {i j : ℕ} {step : Step} (hj : p.spec.steps[j]? = some step)
    (hs : i ∈ p.successors j step) : j ∈ p.predecessors i := by
  unfold Program.predecessors
  refine List.mem_map.mpr ⟨(step,j),List.mem_filter.mpr ⟨List.mem_zipIdx_iff_getElem?.mpr hj,
    ?_⟩,rfl⟩
  simpa using hs

/-- What is checked of a step that does not conclude. -/
structure Carried (c : Artifact) (step : Step) (target : Selector) : Prop where
  there : c.targets.get step.target = some target
  effect : step.effect = .read ∨ step.effect = .change
  visual : target.primary.visual.isSome = true → step.kind = .click ∧ step.effect = .change
  kind : validateStepKind c step = .ok ()
  observes : step.kind.observes = true → step.effect = .read

lemma validateStep_carried {step : Step} (h : validateStep c step = .ok ())
    (hk : step.kind ≠ .conclude) :
    ∃ target, Carried c step target := by
  unfold validateStep at h
  rw [if_neg hk] at h
  cases ht : c.targets.get step.target with
  | none =>
    rw [ht] at h
    cases h
  | some target =>
    rw [ht] at h
    dsimp only at h
    by_cases heffect : step.effect ≠ .read ∧ step.effect ≠ .change
    · rw [if_pos heffect] at h
      cases h
    rw [if_neg heffect] at h
    by_cases hvisual : target.primary.visual.isSome = true ∧
      (step.kind ≠ .click ∨ step.effect ≠ .change)
    · rw [if_pos hvisual] at h
      cases h
    rw [if_neg hvisual] at h
    obtain ⟨⟨⟩,hkind,h⟩ := bind_ok h
    split_ifs at h with hobserves houtcome
    exact ⟨target,ht,by tauto,by tauto,hkind,by tauto⟩

/-- A branch has somewhere else to go. -/
lemma validateStep_branch {step : Step} (h : validateStep c step = .ok ())
    (hb : step.kind = .branch) :
    step.otherwise ≠ "" := by
  obtain ⟨target,hcarried⟩ := validateStep_carried h (by simp [hb])
  have hkind := hcarried.kind
  unfold validateStepKind at hkind
  rw [hb] at hkind
  dsimp only at hkind
  split at hkind
  · cases hkind
  · split_ifs at hkind with ho
    exact fun he => ho ⟨rfl,he⟩

lemma successors_lt {i j : ℕ} {step : Step} (hf : Forward p.positions j step)
    (hb : step.kind = .branch → step.otherwise ≠ "") (h : i ∈ p.successors j step) : j < i := by
  unfold Program.successors at h
  rcases List.mem_append.mp h with h | h
  · split_ifs at h with hlt
    · rw [List.mem_singleton.mp h]
      exact hf.next_lt p rfl
    · cases h
  · split_ifs at h with hbranch
    · rw [List.mem_singleton.mp h]
      exact hf.otherwise_lt p rfl (hb hbranch.1)
    · cases h

/-- The checks before that of the flow, with one definition for each output. -/
lemma compiled_of_checked {validateAnchor : VisualAnchor → Except String Unit} {digest : String}
    (h : compileChecked validateAnchor digest c = .ok p)
    (hdefs : validateDefinitions [] p.spec.steps = .ok ()) :
    Compiled c p := by
  unfold compileChecked at h
  obtain ⟨⟨⟩,_,h⟩ := bind_ok h
  obtain ⟨⟨⟩,_,h⟩ := bind_ok h
  obtain ⟨⟨⟩,hcount,h⟩ := bind_ok h
  obtain ⟨⟨⟩,hlimits,h⟩ := bind_ok h
  obtain ⟨⟨⟩,_,h⟩ := bind_ok h
  obtain ⟨⟨⟩,_,h⟩ := bind_ok h
  obtain ⟨⟨⟩,houtputs,h⟩ := bind_ok h
  obtain ⟨⟨⟩,_,h⟩ := bind_ok h
  obtain ⟨⟨⟩,_,h⟩ := bind_ok h
  obtain ⟨⟨⟩,_,h⟩ := bind_ok h
  obtain ⟨⟨⟩,hrecoveries,h⟩ := bind_ok h
  obtain ⟨positions,hpositions,h⟩ := bind_ok h
  obtain ⟨⟨⟩,hedges,h⟩ := bind_ok h
  obtain ⟨⟨⟩,_,h⟩ := bind_ok h
  cases h
  have hpos := validateSteps_positioned hpositions
  have hempty := (not_or.mp (refuse_ok hcount)).1
  obtain ⟨hnodup,hrec⟩ := validateRecoveries_unique hrecoveries
  obtain ⟨hnames,houts⟩ := validateOutputs_currency houtputs
  refine ⟨rfl,?_,?_,fun s hs => (hpos.valid s hs).1,fun s hs => (hpos.valid s hs).2,?_,?_,?_,
    ⟨hnodup,fun r hr => (hrec r hr).2⟩,(validateDefinitions_unique hdefs).1,
    hnames,fun d hd => (houts d hd).2⟩
  · exact fun he => hempty (by simpa using congrArg List.length he)
  · unfold validateLimits at hlimits
    split_ifs at hlimits with hbad
    simp only [not_or,not_lt] at hbad
    exact ⟨hbad.1,hbad.2.2.2.2.1⟩
  · intro i step hi
    have := hpos.set i step hi
    rwa [Nat.zero_add] at this
  · intro name i hi
    rcases hpos.found name i hi with hbefore | ⟨k,step,hk,_,rfl⟩
    · cases hbefore
    · rw [Nat.zero_add]
      exact (List.getElem?_eq_some_iff.mp hk).1
  · intro i step hi
    have := validateEdges_forward hedges hi
    rwa [Nat.zero_add] at this

/-- The compiler's checks, as its callers may use them. -/
theorem compile_compiled {validateAnchor : VisualAnchor → Except String Unit} {digest : String}
    (h : compile validateAnchor digest c = .ok p) : Compiled c p ∧ validateFlow c p = .ok () := by
  unfold compile at h
  obtain ⟨p',hchecked,h⟩ := bind_ok h
  obtain ⟨⟨⟩,hflow,h⟩ := bind_ok h
  cases h
  obtain ⟨⟨⟩,hdefs,_⟩ := bind_ok hflow
  exact ⟨compiled_of_checked hchecked hdefs,hflow⟩

/-- Checks of the compiler that its program does not carry. -/
lemma compile_checks {validateAnchor : VisualAnchor → Except String Unit} {digest : String}
    (h : compile validateAnchor digest c = .ok p) :
    validateTargets validateAnchor c.targets.entries = .ok () ∧
      validateOutcomes c.outputs [] c.outcomes = .ok () := by
  unfold compile at h
  obtain ⟨p',hchecked,_⟩ := bind_ok h
  unfold compileChecked at hchecked
  obtain ⟨⟨⟩,_,h⟩ := bind_ok hchecked
  obtain ⟨⟨⟩,_,h⟩ := bind_ok h
  obtain ⟨⟨⟩,_,h⟩ := bind_ok h
  obtain ⟨⟨⟩,_,h⟩ := bind_ok h
  obtain ⟨⟨⟩,_,h⟩ := bind_ok h
  obtain ⟨⟨⟩,_,h⟩ := bind_ok h
  obtain ⟨⟨⟩,_,h⟩ := bind_ok h
  obtain ⟨⟨⟩,houtcomes,h⟩ := bind_ok h
  obtain ⟨⟨⟩,htargets,_⟩ := bind_ok h
  exact ⟨htargets,houtcomes⟩

namespace Compiled

lemma branch (h : Compiled c p) {step : Step} {i : ℕ} (hi : p.spec.steps[i]? = some step)
    (hb : step.kind = .branch) : step.otherwise ≠ "" :=
  validateStep_branch (h.steps step (List.mem_of_getElem? hi)) hb

lemma predecessors_lt (h : Compiled c p) (i j : ℕ) (hj : j ∈ p.predecessors i) : j < i := by
  obtain ⟨step,hstep,hs⟩ := mem_predecessors hj
  exact successors_lt (h.forward j step hstep) (h.branch hstep) hs

/-- The names of steps are their own. -/
lemma index_unique (h : Compiled c p) {i j : ℕ} {s t : Step} (hi : p.spec.steps[i]? = some s)
    (hj : p.spec.steps[j]? = some t) (hid : s.id = t.id) : i = j := by
  have h1 := h.position i s hi
  have h2 := h.position j t hj
  rw [hid,h2] at h1
  exact (Option.some.inj h1).symm

/-- An edge leads to a later step or past the last one. -/
lemma edge_lt (h : Compiled c p) {s : State} {step : Step}
    (hs : p.spec.steps[s.stepIndex]? = some step)
    {next : String} (edge : Edge step next) : s.stepIndex < nextIndex p s next := by
  have hf := h.forward _ _ hs
  rcases edge with rfl | ⟨hb,rfl⟩
  · exact hf.next_lt p rfl
  · have ho := h.branch hs hb
    rw [nextIndex,if_neg ho]
    exact hf.otherwise_lt p rfl ho

/-- An edge that leads to a step is one the analysis follows. -/
lemma edge_mem (h : Compiled c p) {s : State} {step : Step}
    (hs : p.spec.steps[s.stepIndex]? = some step)
    {next : String} (edge : Edge step next) (hin : nextIndex p s next < p.spec.steps.length) :
    s.stepIndex ∈ p.predecessors (nextIndex p s next) := by
  apply mem_predecessors_of hs
  unfold Program.successors
  have hnext : nextIndex p s step.next = p.next s.stepIndex step := rfl
  rcases edge with rfl | ⟨hb,rfl⟩
  · rw [hnext] at hin ⊢
    rw [if_pos hin]
    exact List.mem_append_left _ List.mem_cons_self
  · have ho := h.branch hs hb
    rw [nextIndex,if_neg ho] at hin ⊢
    by_cases hsame : p.position step.otherwise = p.next s.stepIndex step
    · rw [hsame] at hin ⊢
      rw [if_pos hin]
      exact List.mem_append_left _ List.mem_cons_self
    · rw [if_pos (show step.kind = .branch ∧
        p.position step.otherwise ≠ p.next s.stepIndex step from ⟨hb,hsame⟩)]
      exact List.mem_append_right _ List.mem_cons_self

end Compiled

/-- The analysis that a compiled program passed. -/
theorem Compiled.flow (h : Compiled c p) (hflow : validateFlow c p = .ok ()) :
    ∃ defs, Flow p defs ∧ ∀ (i : ℕ) (step : Step), p.spec.steps[i]? = some step →
    step.kind = .conclude →
      ∃ outcome, c.outcomes.find? (fun o => o.id = step.outcome) = some outcome ∧
        validateRequired c.outputs step.id ((defs[i]?).getD Table.empty)
        (requiredOutputs c.outputs outcome) = .ok () := by
  unfold validateFlow at hflow
  obtain ⟨⟨⟩,_,hflow⟩ := bind_ok hflow
  obtain ⟨defs,hdefs,hflow⟩ := bind_ok hflow
  obtain ⟨⟨more,hmore,hlen⟩,hsteps⟩ := definitions_flow h.predecessors_lt [] hdefs
  refine ⟨defs,⟨?_,?_,?_⟩,?_⟩
  · rw [hmore]
    simpa using hlen
  · intro i step hi
    have := (hsteps i step hi).1
    simpa using this
  · intro i step hi
    have := (hsteps i step hi).2
    simpa using this
  · intro i step hi hc
    by_cases hnone : c.outputs = [] ∧ c.outcomes = []
    · have hvalid := h.steps step (List.mem_of_getElem? hi)
      rw [validateStep,if_pos hc,hnone.2] at hvalid
      split_ifs at hvalid with htarget houtcome
      exact (houtcome (.inr rfl)).elim
    · rw [if_neg hnone] at hflow
      obtain ⟨n,hn,_⟩ := bind_ok hflow
      have := validateConcludes_ok hn hi hc
      rwa [Nat.zero_add] at this

end

end Manvi.Workflow
