import Manvi.Workflow.Strict

/-! Activating tools by name or by group, with the tools they require. -/
namespace Manvi.Tools
open Manvi.Workflow

structure Tool where
  name : String
  group : String
  requires : List String
  deriving Repr, DecidableEq

/-- The registered tools by their names, in the order they are ranged over, and those that are
offered. -/
structure Registry where
  tools : List Tool
  names : (tools.map Tool.name).Nodup
  active : Finset String

/-- How a map is ranged over: each key once the loop starts, and maybe some that are added
meanwhile. -/
structure RangeOrder where
  visits : Finset String → List String
  covers : ∀ s, ∀ name ∈ s, name ∈ visits s

def equalFold (U : CaseFolding) (a b : String) : Bool := U.foldKey a = U.foldKey b

def find (tools : List Tool) (name : String) : Option Tool := tools.find? (fun t => t.name = name)

/-- The tools that a target names: those of the group, and the one of the name. -/
def named (U : CaseFolding) (tools : List Tool) (target : String) : List String :=
  (tools.filter (fun t => equalFold U t.group target)).map Tool.name ++
  ((find tools target).map Tool.name).toList

/-- What is active so far and what was not before. -/
structure Progress where
  active : Finset String
  newly : List String

def Progress.add (p : Progress) (name : String) : Progress :=
  if name ∈ p.active then p else ⟨insert name p.active,p.newly ++ [name]⟩

/-- Go through the targets, up to the first that names nothing. -/
def activateTargets (U : CaseFolding) (tools : List Tool) :
    List String → Progress → Finset String × Except String (List String)
  | [],p => (p.active,.ok p.newly)
  | target :: rest,p =>
    if named U tools target = [] then
      (p.active,.error s!"tools: unknown tool or group {repr target}")
    else activateTargets U tools rest ((named U tools target).foldl Progress.add p)

/-- Activate a tool that another requires, when there is one. -/
def require (tools : List Tool) (active : Finset String) (name : String) : Finset String :=
  if (find tools name).isSome then insert name active else active

/-- Visit one name: the tools that an active one requires become active. -/
def visit (tools : List Tool) (active : Finset String) (name : String) : Finset String :=
  if name ∈ active then match find tools name with
    | none => active
    | some t => t.requires.foldl (require tools) active
  else active

/-- One pass over the active tools. -/
def pass (order : RangeOrder) (tools : List Tool) (active : Finset String) : Finset String :=
  (order.visits active).foldl (visit tools) active

/-- Pass again until nothing changes. -/
def resolveDependencies (order : RangeOrder) (tools : List Tool) : ℕ → Finset String → Finset String
  | 0,active => active
  | fuel+1,active =>
    if pass order tools active = active then
      active else resolveDependencies order tools fuel (pass order tools active)

def Registry.activate (U : CaseFolding) (order : RangeOrder) (r : Registry)
    (targets : List String) :
    Registry × Except String (List String) :=
  match activateTargets U r.tools targets ⟨r.active,[]⟩ with
  | (active,.error e) => ({ r with active := active },.error e)
  | (active,.ok newly) =>
    ({ r with active := resolveDependencies order r.tools (r.tools.length+1) active },
      .ok (newly.mergeSort (fun a b => a ≤ b)))

/-- With an active tool, every registered one that it requires is active. -/
def Closed (tools : List Tool) (s : Finset String) : Prop :=
  ∀ t ∈ tools, t.name ∈ s → ∀ name ∈ t.requires, (find tools name).isSome = true → name ∈ s

/-- The closed sets that have what is active and what the targets name. -/
def Admits (U : CaseFolding) (r : Registry) (targets : List String) (s : Finset String) : Prop :=
  Closed r.tools s ∧ r.active ⊆ s ∧ ∀ target ∈ targets, ∀ name ∈ named U r.tools target, name ∈ s

section resolve
variable {order : RangeOrder} {tools : List Tool} {active s : Finset String} {name : String}

lemma find_name {t : Tool} (h : find tools name = some t) : t ∈ tools ∧ t.name = name :=
  ⟨List.mem_of_find?_eq_some h,by simpa using List.find?_some h⟩

/-- A fold of steps that only add, and never leave a set, adds and stays inside it. -/
lemma foldl_grows {f : Finset String → String → Finset String} (hf : ∀ a n, a ⊆ f a n)
    (ns : List String) (a : Finset String) :
    a ⊆ ns.foldl f a := by
  induction ns generalizing a with
  | nil => exact subset_rfl
  | cons n ns ih => exact (hf a n).trans (ih (f a n))

lemma foldl_inside {f : Finset String → String → Finset String} {ns : List String}
    (hf : ∀ a, a ⊆ s → ∀ n ∈ ns, f a n ⊆ s)
    (h : active ⊆ s) : ns.foldl f active ⊆ s := by
  induction ns generalizing active with
  | nil => exact h
  | cons n ns ih =>
    exact ih (fun a ha m hm => hf a ha m (List.mem_cons_of_mem _ hm))
      (hf active h n List.mem_cons_self)

/-- When a fold of steps that only add changes nothing, no step does. -/
lemma foldl_fixed {f : Finset String → String → Finset String} (hf : ∀ a n, a ⊆ f a n)
    {ns : List String}
    (h : ns.foldl f active = active) : ∀ n ∈ ns, f active n = active := by
  induction ns with
  | nil => simp
  | cons n ns ih =>
    have hn : f active n = active := by
      refine Finset.Subset.antisymm ?_ (hf active n)
      have hgrows := foldl_grows hf ns (f active n)
      rw [List.foldl_cons] at h
      rwa [h] at hgrows
    rw [List.foldl_cons,hn] at h
    rw [List.forall_mem_cons]
    exact ⟨hn,ih h⟩

lemma subset_require (a : Finset String) (name : String) : a ⊆ require tools a name := by
  unfold require
  split_ifs
  · exact Finset.subset_insert _ _
  · exact subset_rfl

lemma subset_visit (a : Finset String) (name : String) : a ⊆ visit tools a name := by
  unfold visit
  split_ifs
  · split
    · exact subset_rfl
    · exact foldl_grows subset_require _ a
  · exact subset_rfl

lemma subset_pass : active ⊆ pass order tools active := foldl_grows subset_visit _ active

lemma visit_inside (hs : Closed tools s) (h : active ⊆ s) (name : String) :
    visit tools active name ⊆ s := by
  unfold visit
  split_ifs with hname
  · split
    next => exact h
    next t ht =>
      obtain ⟨hmem,rfl⟩ := find_name ht
      refine foldl_inside (fun a ha req hreq => ?_) h
      unfold require
      split_ifs with hsome
      · exact Finset.insert_subset (hs t hmem (h hname) req hreq hsome) ha
      · exact ha
  · exact h

lemma pass_inside (hs : Closed tools s) (h : active ⊆ s) : pass order tools active ⊆ s :=
  foldl_inside (fun _ ha name _ => visit_inside hs ha name) h

/-- A pass that changes nothing leaves a closed set. -/
lemma closed_of_pass (hn : (tools.map Tool.name).Nodup) (h : pass order tools active = active) :
    Closed tools active := by
  intro t ht hactive req hreq hsome
  have hvisit := foldl_fixed subset_visit h t.name (order.covers active t.name hactive)
  have hfind : find tools t.name = some t := by
    unfold find
    cases hf : tools.find? (fun u => u.name = t.name) with
    | none => exact (List.find?_eq_none.mp hf t ht (by simp)).elim
    | some u =>
      obtain ⟨hu,hname⟩ := find_name hf
      exact congrArg some (List.inj_on_of_nodup_map hn hu ht hname)
  unfold visit at hvisit
  rw [if_pos hactive,hfind] at hvisit
  have hreq' := foldl_fixed subset_require hvisit req hreq
  unfold require at hreq'
  rw [if_pos hsome] at hreq'
  rw [← hreq']
  exact Finset.mem_insert_self _ _

lemma visit_registered (name : String) :
    ∀ n ∈ visit tools active name, n ∈ active ∨ n ∈ tools.map Tool.name := by
  have hreq : ∀ (reqs : List String) (a : Finset String),
    (∀ n ∈ a, n ∈ active ∨ n ∈ tools.map Tool.name) →
      ∀ n ∈ reqs.foldl (require tools) a, n ∈ active ∨ n ∈ tools.map Tool.name := by
    intro reqs
    induction reqs with
    | nil => exact fun a ha => ha
    | cons req reqs ih =>
      intro a ha
      refine ih _ (fun n hn => ?_)
      unfold require at hn
      split_ifs at hn with hsome
      · obtain rfl | hn := Finset.mem_insert.mp hn
        · obtain ⟨t,ht⟩ := Option.isSome_iff_exists.mp hsome
          obtain ⟨hmem,hname⟩ := find_name ht
          exact .inr (List.mem_map.mpr ⟨t,hmem,hname⟩)
        · exact ha n hn
      · exact ha n hn
  unfold visit
  split_ifs
  · split
    · exact fun n hn => .inl hn
    · exact hreq _ _ (fun n hn => .inl hn)
  · exact fun n hn => .inl hn

/-- A pass adds registered tools only. -/
lemma pass_registered : ∀ n ∈ pass order tools active, n ∈ active ∨ n ∈ tools.map Tool.name := by
  unfold pass
  generalize order.visits active = ns
  suffices h : ∀ a : Finset String, (∀ n ∈ a, n ∈ active ∨ n ∈ tools.map Tool.name) →
      ∀ n ∈ ns.foldl (visit tools) a, n ∈ active ∨
      n ∈ tools.map Tool.name from h active (fun n hn => .inl hn)
  induction ns with
  | nil => exact fun a ha => ha
  | cons m ns ih =>
    intro a ha
    refine ih _ (fun n hn => ?_)
    obtain hn | hn := visit_registered m n hn
    · exact ha n hn
    · exact .inr hn

/-- Enough passes reach a closed set. -/
lemma resolveDependencies_closed (hn : (tools.map Tool.name).Nodup) {fuel : ℕ}
    (hfuel : ((tools.map Tool.name).toFinset \ active).card < fuel) :
    Closed tools (resolveDependencies order tools fuel active) := by
  induction fuel generalizing active with
  | zero => omega
  | succ fuel ih =>
    unfold resolveDependencies
    split_ifs with hfixed
    · exact closed_of_pass hn hfixed
    · refine ih (lt_of_lt_of_le (Finset.card_lt_card ?_) (Nat.lt_succ_iff.mp hfuel))
      obtain ⟨n,hn,hnot⟩ := Finset.not_subset.mp (fun h =>
        hfixed (Finset.Subset.antisymm h subset_pass))
      have hreg := (pass_registered n hn).resolve_left hnot
      refine Finset.ssubset_iff_of_subset (Finset.sdiff_subset_sdiff subset_rfl subset_pass) |>.mpr
        ⟨n,?_,?_⟩
      · exact Finset.mem_sdiff.mpr ⟨List.mem_toFinset.mpr hreg,hnot⟩
      · exact fun h => (Finset.mem_sdiff.mp h).2 hn

lemma subset_resolveDependencies (fuel : ℕ) :
    active ⊆ resolveDependencies order tools fuel active := by
  induction fuel generalizing active with
  | zero => exact subset_rfl
  | succ fuel ih =>
    unfold resolveDependencies
    split_ifs
    · exact subset_rfl
    · exact subset_pass.trans ih

lemma resolveDependencies_inside (fuel : ℕ) (hs : Closed tools s) (h : active ⊆ s) :
    resolveDependencies order tools fuel active ⊆ s := by
  induction fuel generalizing active with
  | zero => exact h
  | succ fuel ih =>
    unfold resolveDependencies
    split_ifs
    · exact h
    · exact ih (pass_inside hs h)

end resolve

section targets
variable {base : Finset String} {seen : List String} {p : Progress}

/-- What was named so far is active, and is noted as new when it was not active before. -/
structure Tracks (base : Finset String) (seen : List String) (p : Progress) : Prop where
  active : ∀ n, n ∈ p.active ↔ n ∈ base ∨ n ∈ seen
  newly : ∀ n, n ∈ p.newly ↔ n ∉ base ∧ n ∈ seen
  nodup : p.newly.Nodup

lemma tracks_start (base : Finset String) : Tracks base [] ⟨base,[]⟩ :=
    ⟨by simp,by simp,List.nodup_nil⟩

lemma Tracks.add (h : Tracks base seen p) (name : String) :
    Tracks base (seen ++ [name]) (p.add name) := by
  unfold Progress.add
  split_ifs with hname
  · have hold := (h.active name).mp hname
    refine ⟨fun n => ?_,fun n => ?_,h.nodup⟩
    · rw [h.active,List.mem_append,List.mem_singleton]
      constructor
      · exact fun hn => hn.imp_right .inl
      · rintro (hn | hn | rfl)
        · exact .inl hn
        · exact .inr hn
        · exact hold
    · rw [h.newly,List.mem_append,List.mem_singleton]
      constructor
      · exact fun hn => ⟨hn.1,.inl hn.2⟩
      · rintro ⟨hbase,hn | rfl⟩
        · exact ⟨hbase,hn⟩
        · exact ⟨hbase,hold.resolve_left hbase⟩
  · have hnew : name ∉ base ∧ name ∉ seen := not_or.mp (fun hor => hname ((h.active name).mpr hor))
    refine ⟨fun n => ?_,fun n => ?_,?_⟩
    · rw [Finset.mem_insert,h.active,List.mem_append,List.mem_singleton]
      tauto
    · rw [List.mem_append,h.newly,List.mem_singleton,List.mem_append,List.mem_singleton]
      constructor
      · rintro (hn | rfl)
        · exact ⟨hn.1,.inl hn.2⟩
        · exact ⟨hnew.1,.inr rfl⟩
      · rintro ⟨hbase,hn | rfl⟩
        · exact .inl ⟨hbase,hn⟩
        · exact .inr rfl
    · refine List.Nodup.append h.nodup (List.nodup_singleton _) ?_
      rw [List.disjoint_singleton]
      exact fun hn => hnew.2 ((h.newly name).mp hn).2

lemma Tracks.foldl (h : Tracks base seen p) (ns : List String) :
    Tracks base (seen ++ ns) (ns.foldl Progress.add p) := by
  induction ns generalizing seen p with
  | nil => simpa using h
  | cons n ns ih =>
    have hn := ih (h.add n)
    rwa [List.append_assoc] at hn

/-- The targets are gone through to the end exactly when each names something. -/
lemma activateTargets_spec (U : CaseFolding) (tools : List Tool) (h : Tracks base seen p)
    (targets : List String) :
    ((∃ target ∈ targets, named U tools target = []) ∧ ∃ active e,
      activateTargets U tools targets p = (active,.error e)) ∨
    (∀ target ∈ targets, named U tools target ≠ []) ∧ ∃ p',
    activateTargets U tools targets p = (p'.active,.ok p'.newly) ∧
      Tracks base (seen ++ targets.flatMap (named U tools)) p' := by
  induction targets generalizing seen p with
  | nil => exact .inr ⟨by simp,p,rfl,by simpa using h⟩
  | cons target rest ih =>
    unfold activateTargets
    split_ifs with hnone
    · exact .inl ⟨⟨target,List.mem_cons_self,hnone⟩,_,_,rfl⟩
    · obtain ⟨⟨target',hmem,hnone'⟩,herr⟩ | ⟨hall,p',hp',htracks⟩ :=
        ih (h.foldl (named U tools target))
      · exact .inl ⟨⟨target',List.mem_cons_of_mem _ hmem,hnone'⟩,herr⟩
      · refine .inr ⟨List.forall_mem_cons.mpr ⟨hnone,hall⟩,p',hp',?_⟩
        rwa [List.append_assoc] at htracks

end targets

/-- Unknown targets are refused; else the least closed set that has the named tools becomes active,
and those of the named tools that were not active before are returned. -/
theorem activate_least (U : CaseFolding) (order : RangeOrder) (r : Registry)
    (targets : List String) :
    ((∃ e, (r.activate U order targets).2 = .error e) ↔ ∃ target ∈ targets,
      named U r.tools target = []) ∧
    ∀ newly, (r.activate U order targets).2 = .ok newly →
      IsLeast {s | Admits U r targets s} (r.activate U order targets).1.active ∧ newly.Nodup ∧
      newly.Pairwise (· ≤ ·) ∧
      ∀ n, n ∈ newly ↔ n ∉ r.active ∧ ∃ target ∈ targets, n ∈ named U r.tools target := by
  unfold Registry.activate
  obtain ⟨hnone,active,e,he⟩ | ⟨hall,p,hp,htracks⟩ :=
    activateTargets_spec U r.tools (tracks_start r.active) targets
  · rw [he]
    exact ⟨⟨fun _ => hnone,fun _ => ⟨e,rfl⟩⟩,fun newly h => (by cases h)⟩
  · rw [hp]
    rw [List.nil_append] at htracks
    refine ⟨⟨fun ⟨e,he⟩ => (by cases he),
      fun ⟨target,hmem,hnone⟩ => (hall target hmem hnone).elim⟩,?_⟩
    intro newly hnewly
    cases hnewly
    have hperm := List.mergeSort_perm p.newly (fun a b => decide (a ≤ b))
    refine ⟨⟨⟨?_,?_,?_⟩,?_⟩,hperm.nodup_iff.mpr htracks.nodup,?_,fun n => ?_⟩
    · refine resolveDependencies_closed r.names (Nat.lt_succ_of_le ?_)
      refine (Finset.card_le_card Finset.sdiff_subset).trans ?_
      exact (List.toFinset_card_le _).trans (List.length_map _).le
    · exact fun n hn => subset_resolveDependencies _ ((htracks.active n).mpr (.inl hn))
    · intro target hmem name hname
      exact subset_resolveDependencies _ ((htracks.active name).mpr
        (.inr (List.mem_flatMap.mpr ⟨target,hmem,hname⟩)))
    · rintro s ⟨hclosed,hbase,hnamed⟩
      refine resolveDependencies_inside _ hclosed (fun n hn => ?_)
      obtain hn | hn := (htracks.active n).mp hn
      · exact hbase hn
      · obtain ⟨target,hmem,hname⟩ := List.mem_flatMap.mp hn
        exact hnamed target hmem n hname
    · have hsorted : (p.newly.mergeSort (fun a b => decide (a ≤ b))).Pairwise (fun a b =>
        decide (a ≤ b) = true) := by
        refine List.pairwise_mergeSort (fun a b c hab hbc => ?_) (fun a b => ?_) p.newly
        · exact decide_eq_true ((of_decide_eq_true hab).trans (of_decide_eq_true hbc))
        · rw [Bool.or_eq_true,decide_eq_true_iff,decide_eq_true_iff]
          exact le_total a b
      exact hsorted.imp (fun h => of_decide_eq_true h)
    · rw [hperm.mem_iff,htracks.newly,List.mem_flatMap]

/-- An error changes nothing, and else the least closed set becomes active and all that is new in it
is returned. -/
def AllOrNothing (U : CaseFolding) (order : RangeOrder) (r : Registry) (targets : List String) :
    Prop :=
  (∃ e, (r.activate U order targets).2 = .error e ∧
    (r.activate U order targets).1.active = r.active) ∨
  ∃ newly, (r.activate U order targets).2 = .ok newly ∧
    IsLeast {s | Admits U r targets s} (r.activate U order targets).1.active ∧
    ∀ n, n ∈ newly ↔ n ∈ (r.activate U order targets).1.active ∧ n ∉ r.active

/-- A tool that verifies, and the one it requires. -/
def verifyTools : Registry :=
  ⟨[⟨"verify_task","task",["checkout_task"]⟩,⟨"checkout_task","task",[]⟩],by decide,∅⟩

/-- A range that visits each key in order. -/
def inOrder : RangeOrder := ⟨fun s => s.sort (· ≤ ·),fun _ _ h => (Finset.mem_sort _).mpr h⟩

/-- The tool that is required becomes active, and is not returned. -/
theorem required_not_returned :
    ¬ ∀ (U : CaseFolding) (order : RangeOrder) (r : Registry) (targets : List String),
    Closed r.tools r.active → AllOrNothing U order r targets := by
  intro h
  have hclosed : Closed verifyTools.tools verifyTools.active :=
    fun t _ ht => (by simp [verifyTools] at ht)
  have hrun : (verifyTools.activate asciiFolding inOrder ["verify_task"]).2 =
    .ok ["verify_task"] := by decide +kernel
  obtain ⟨e,he,-⟩ | ⟨newly,hnewly,hleast,hexact⟩ :=
    h asciiFolding inOrder verifyTools ["verify_task"] hclosed
  · rw [hrun] at he
    cases he
  · rw [hrun] at hnewly
    cases hnewly
    have hverify := hleast.1.2.2 "verify_task" List.mem_cons_self "verify_task" (by decide)
    have hactive := hleast.1.1 ⟨"verify_task","task",
      ["checkout_task"]⟩ (by decide) hverify "checkout_task" (by decide) (by decide)
    have hmem := (hexact "checkout_task").mpr ⟨hactive,by decide⟩
    simp at hmem

end Manvi.Tools
