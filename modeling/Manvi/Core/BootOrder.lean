import Manvi.Core.Plugin

/-! Boot order: every provider before the plugins that need it, whatever the order the plugins are
given in. -/
namespace Manvi.Kernel
open Manvi.Graph

variable {σ δ : Type} {plugins : List (Plugin σ δ)} {has : String → Bool}

/-- A plugin of a boot declares a service that another one needs. -/
def Before (plugins : List (Plugin σ δ)) (a b : String) : Prop :=
  a ≠ b ∧ ∃ q ∈ plugins, ∃ p ∈ plugins, q.name = a ∧ p.name = b ∧ ∃ dep ∈ p.deps, dep ∈ q.provides

/-- What a boot must meet before a plugin is applied. -/
structure Bootable (plugins : List (Plugin σ δ)) (has : String → Bool) : Prop where
  names : (plugins.map Plugin.name).Nodup
  keys : (plugins.flatMap Plugin.provides).Nodup
  deps : ∀ p ∈ plugins, ∀ dep ∈ p.deps, has dep = true ∨ ∃ q ∈ plugins, dep ∈ q.provides
  acyclic : ∀ n, ¬ Relation.TransGen (Before plugins) n n

lemma bind_eq_ok {α β ε : Type} {x : Except ε α} {f : α → Except ε β} {b : β} :
    x.bind f = .ok b ↔ ∃ a, x = .ok a ∧ f a = .ok b := by
  cases x with
  | error e => exact ⟨fun h => (by cases h),fun ⟨a,h,_⟩ => (by cases h)⟩
  | ok a => exact ⟨fun h => ⟨a,rfl,h⟩,fun ⟨a',h,hb⟩ => (by cases h; exact hb)⟩

lemma foldlM_cons_ok {α β ε : Type} {f : β → α → Except ε β} {a : α} {l : List α} {b r : β} :
    (a :: l).foldlM f b = .ok r ↔ ∃ b', f b a = .ok b' ∧ l.foldlM f b' = .ok r := by
  rw [List.foldlM_cons]
  exact bind_eq_ok

section declared

lemma declareKey_ok {name key : String} {f f' : String → Option String} :
    declareKey name f key = .ok f' ↔ f key = none ∧ f' = Function.update f key (some name) := by
  unfold declareKey
  split
  · rename_i prior hprior
    rw [hprior]
    exact ⟨fun h => (by cases h),fun h => (by cases h.1)⟩
  · rename_i hnone
    exact ⟨fun h => (by cases h; exact ⟨hnone,rfl⟩),fun h => (by rw [h.2])⟩

/-- The services of one plugin are declared when none of them was, and none is there twice. -/
lemma declareKeys_ok {name : String} {keys : List String} {f f' : String → Option String} :
    keys.foldlM (declareKey name) f = .ok f' ↔
      keys.Nodup ∧ (∀ key ∈ keys, f key = none) ∧ f' = fun key => if keys.contains key then
      some name else f key := by
  induction keys generalizing f with
  | nil =>
    simp only [List.foldlM_nil,List.nodup_nil,List.not_mem_nil,List.contains_nil,Bool.false_eq_true,
      if_false,true_and]
    exact ⟨fun h => (by cases h; exact ⟨fun _ h => (by cases h),rfl⟩),fun h => (by rw [h.2]; rfl)⟩
  | cons key keys ih =>
    simp only [foldlM_cons_ok,declareKey_ok,ih]
    have hfun : ∀ hnew : key ∉ keys,
      (fun k => if keys.contains k then some name else Function.update f key (some name) k)
        = fun k => if (key :: keys).contains k then some name else f k := by
      intro hnew
      funext k
      by_cases hk : k = key
      · subst hk
        simp
      · simp [hk]
    constructor
    · rintro ⟨_,⟨hkey,rfl⟩,hnodup,hnone,rfl⟩
      have hnew : key ∉ keys := by
        intro hin
        have := hnone key hin
        rw [Function.update_self] at this
        cases this
      refine ⟨List.nodup_cons.mpr ⟨hnew,hnodup⟩,?_,hfun hnew⟩
      intro k hk
      obtain rfl | hk := List.mem_cons.mp hk
      · exact hkey
      · have hold := hnone k hk
        rwa [Function.update_of_ne (ne_of_mem_of_not_mem hk hnew)] at hold
    · rintro ⟨hnodup,hnone,rfl⟩
      obtain ⟨hnew,hnodup⟩ := List.nodup_cons.mp hnodup
      refine ⟨_,⟨hnone key List.mem_cons_self,rfl⟩,hnodup,?_,(hfun hnew).symm⟩
      intro k hk
      rw [Function.update_of_ne (ne_of_mem_of_not_mem hk hnew)]
      exact hnone k (List.mem_cons_of_mem _ hk)

lemma declare_ok {d d' : Declared σ δ} {p : Plugin σ δ} :
    declare d p = .ok d' ↔ d.byName p.name = none ∧ p.provides.Nodup ∧
    (∀ key ∈ p.provides, d.providerOf key = none)
      ∧ d' = ⟨Function.update d.byName p.name (some p),fun key => if p.provides.contains key then
        some p.name else d.providerOf key⟩ := by
  unfold declare
  split
  · rename_i hsome
    refine ⟨fun h => (by cases h),fun h => ?_⟩
    rw [h.1] at hsome
    cases hsome
  · rename_i hnone
    rw [Bool.not_eq_true,Option.isSome_eq_false_iff,Option.isNone_iff_eq_none] at hnone
    constructor
    · intro h
      cases hfold : p.provides.foldlM (declareKey p.name) d.providerOf with
      | error e =>
        rw [hfold] at h
        cases h
      | ok f =>
        rw [hfold] at h
        obtain ⟨hnodup,hfree,rfl⟩ := declareKeys_ok.mp hfold
        cases h
        exact ⟨hnone,hnodup,hfree,rfl⟩
    · rintro ⟨-,hnodup,hfree,rfl⟩
      rw [declareKeys_ok.mpr ⟨hnodup,hfree,rfl⟩]
      rfl

/-- The plugin of a name among some. -/
def named (plugins : List (Plugin σ δ)) (n : String) : Option (Plugin σ δ) :=
  plugins.find? (fun p => p.name == n)

/-- The plugin among some that declares a service. -/
def provider (plugins : List (Plugin σ δ)) (key : String) : Option String :=
  (plugins.find? (fun p => p.provides.contains key)).map Plugin.name

/-- The first plugin of a name is declared, over what was declared before. -/
lemma named_cons {p : Plugin σ δ} (hname : p.name ∉ plugins.map Plugin.name)
    (byName : String → Option (Plugin σ δ)) (n : String) :
    (named plugins n).or (Function.update byName p.name (some p) n) = (named (p :: plugins) n).or
    (byName n) := by
  unfold named
  by_cases hn : p.name = n
  · subst hn
    rw [List.find?_cons_of_pos (by simp),Function.update_self,List.find?_eq_none.mpr]
    · rfl
    · intro q hq heq
      exact hname (List.mem_map.mpr ⟨q,hq,by simpa using heq⟩)
  · rw [List.find?_cons_of_neg (by simpa using hn),Function.update_of_ne (fun h => hn h.symm)]

lemma provider_cons {p : Plugin σ δ} (hkeys : ∀ a ∈ p.provides,
    ∀ b ∈ plugins.flatMap Plugin.provides,
    a ≠ b) (providerOf : String → Option String) (key : String) :
    (provider plugins key).or (if p.provides.contains key then
      some p.name else providerOf key) = (provider (p :: plugins) key).or (providerOf key) := by
  unfold provider
  by_cases hk : key ∈ p.provides
  · rw [List.find?_cons_of_pos (by simpa using hk),if_pos (by simpa using hk),
      List.find?_eq_none.mpr]
    · rfl
    · intro q hq heq
      exact hkeys key hk key (List.mem_flatMap.mpr ⟨q,hq,by simpa using heq⟩) rfl
  · rw [List.find?_cons_of_neg (by simpa using hk),if_neg (by simpa using hk)]

lemma declareAll_ok {d d' : Declared σ δ} :
    plugins.foldlM declare d = .ok d' ↔ (plugins.map Plugin.name).Nodup ∧
    (∀ p ∈ plugins, d.byName p.name = none)
      ∧ (plugins.flatMap Plugin.provides).Nodup ∧ (∀ key ∈ plugins.flatMap Plugin.provides,
        d.providerOf key = none)
      ∧ d' = ⟨fun n => (named plugins n).or (d.byName n),
        fun key => (provider plugins key).or (d.providerOf key)⟩ := by
  induction plugins generalizing d with
  | nil =>
    simp only [List.foldlM_nil,List.map_nil,List.flatMap_nil,List.nodup_nil,List.not_mem_nil,
      true_and]
    exact ⟨fun h => (by cases h; exact ⟨fun _ h => (by cases h),fun _ h => (by cases h),rfl⟩),
      fun h => (by rw [h.2.2]; rfl)⟩
  | cons p plugins ih =>
    simp only [foldlM_cons_ok,declare_ok,ih,List.map_cons,List.flatMap_cons,List.nodup_cons,
      List.nodup_append]
    have hout : ∀ (hname : p.name ∉ plugins.map Plugin.name) (hkeys : ∀ a ∈ p.provides,
      ∀ b ∈ plugins.flatMap Plugin.provides, a ≠ b),
        (⟨fun n => (named plugins n).or (Function.update d.byName p.name (some p) n),
          fun key => (provider plugins key).or (if p.provides.contains key then
            some p.name else d.providerOf key)⟩ : Declared σ δ)
        = ⟨fun n => (named (p :: plugins) n).or (d.byName n),
          fun key => (provider (p :: plugins) key).or (d.providerOf key)⟩ := by
      intro hname hkeys
      congr 1
      · funext n
        exact named_cons hname d.byName n
      · funext key
        exact provider_cons hkeys d.providerOf key
    constructor
    · rintro ⟨_,⟨hname,hnodup,hfree,rfl⟩,hnames,hfresh,hkeys,hrest,rfl⟩
      dsimp only at hfresh hrest
      have hnew : p.name ∉ plugins.map Plugin.name := by
        intro hin
        obtain ⟨q,hq,heq⟩ := List.mem_map.mp hin
        have := hfresh q hq
        rw [heq,Function.update_self] at this
        cases this
      have hdisj : ∀ a ∈ p.provides, ∀ b ∈ plugins.flatMap Plugin.provides, a ≠ b := by
        rintro a ha b hb rfl
        have := hrest a hb
        rw [if_pos (by simpa using ha)] at this
        cases this
      refine ⟨⟨hnew,hnames⟩,?_,⟨hnodup,hkeys,hdisj⟩,?_,hout hnew hdisj⟩
      · intro q hq
        obtain rfl | hq := List.mem_cons.mp hq
        · exact hname
        · have hold := hfresh q hq
          rwa [Function.update_of_ne (fun heq => hnew (List.mem_map.mpr ⟨q,hq,heq⟩))] at hold
      · intro key hkey
        obtain hkey | hkey := List.mem_append.mp hkey
        · exact hfree key hkey
        · have hold := hrest key hkey
          rwa [if_neg (by simpa using fun hin => hdisj key hin key hkey rfl)] at hold
    · rintro ⟨⟨hnew,hnames⟩,hfresh,⟨hnodup,hkeys,hdisj⟩,hfree,rfl⟩
      refine ⟨_,⟨hfresh p List.mem_cons_self,hnodup,
        fun key hkey => hfree key (List.mem_append_left _ hkey),rfl⟩,hnames,?_,hkeys,?_,
        (hout hnew hdisj).symm⟩
      · intro q hq
        dsimp only
        rw [Function.update_of_ne (fun heq => hnew (List.mem_map.mpr ⟨q,hq,heq⟩))]
        exact hfresh q (List.mem_cons_of_mem _ hq)
      · intro key hkey
        dsimp only
        rw [if_neg (by simpa using fun hin => hdisj key hin key hkey rfl)]
        exact hfree key (List.mem_append_right _ hkey)

lemma named_eq_some (hnames : (plugins.map Plugin.name).Nodup) {n : String} {p : Plugin σ δ} :
    named plugins n = some p ↔ p ∈ plugins ∧ p.name = n := by
  constructor
  · intro h
    exact ⟨List.mem_of_find?_eq_some h,by simpa using List.find?_some h⟩
  · rintro ⟨hp,rfl⟩
    unfold named
    obtain ⟨q,hq⟩ := Option.isSome_iff_exists.mp
      ((@List.find?_isSome _ plugins (fun q => q.name == p.name)).mpr ⟨p,hp,
      beq_self_eq_true p.name⟩)
    have heq : q.name = p.name := by simpa using List.find?_some hq
    rw [hq,List.inj_on_of_nodup_map hnames (List.mem_of_find?_eq_some hq) hp heq]

lemma mem_flatMap_unique (hkeys : (plugins.flatMap Plugin.provides).Nodup) {p q : Plugin σ δ}
    (hp : p ∈ plugins) (hq : q ∈ plugins) {key : String}
    (hkp : key ∈ p.provides) (hkq : key ∈ q.provides) : p = q := by
  by_contra hne
  have hsymm : Std.Symm (Function.onFun List.Disjoint (@Plugin.provides σ δ)) :=
    ⟨fun _ _ h => List.Disjoint.symm h⟩
  exact (List.nodup_flatMap.mp hkeys).2.forall hp hq hne hkp hkq

lemma provider_eq_some (hkeys : (plugins.flatMap Plugin.provides).Nodup) {key n : String} :
    provider plugins key = some n ↔ ∃ p ∈ plugins, p.name = n ∧ key ∈ p.provides := by
  unfold provider
  rw [Option.map_eq_some_iff]
  constructor
  · rintro ⟨p,hp,rfl⟩
    exact ⟨p,List.mem_of_find?_eq_some hp,rfl,by simpa using List.find?_some hp⟩
  · rintro ⟨p,hp,rfl,hkey⟩
    obtain ⟨q,hq⟩ := Option.isSome_iff_exists.mp
      ((@List.find?_isSome _ plugins (fun p => p.provides.contains key)).mpr ⟨p,hp,
      by simpa using hkey⟩)
    refine ⟨q,hq,?_⟩
    rw [mem_flatMap_unique hkeys (List.mem_of_find?_eq_some hq) hp
      (by simpa using List.find?_some hq) hkey]

end declared

section links
variable {providerOf : String → Option String} {s s' : Links}

/-- The names that one plugin adds behind a provider, one for each service it needs of it. -/
def behind (providerOf : String → Option String) (p : Plugin σ δ) (x : String) : List String :=
  (p.deps.filter (fun dep => providerOf dep == some x && x != p.name)).map (fun _ => p.name)

/-- The count of a node is what the lists of the providers hold of it. -/
def Balanced (nodes : Finset String) (s : Links) : Prop :=
  ∀ n, s.indegree n = ∑ x ∈ nodes, (s.dependents x).count n

lemma linkDep_ok {name dep : String} :
    (∃ s', linkDep providerOf has name s dep = .ok s') ↔ has dep = true ∨
    (providerOf dep).isSome := by
  unfold linkDep
  cases hprov : providerOf dep with
  | none =>
    dsimp only
    split
    · rename_i hhas
      exact ⟨fun _ => Or.inl hhas,fun _ => ⟨s,rfl⟩⟩
    · rename_i hhas
      refine ⟨fun ⟨_,h⟩ => (by cases h),fun h => ?_⟩
      simp [hhas] at h
  | some x =>
    refine ⟨fun _ => Or.inr rfl,fun _ => ?_⟩
    dsimp only
    split
    · exact ⟨_,rfl⟩
    · exact ⟨_,rfl⟩

lemma linkDep_dependents {name dep : String} (h : linkDep providerOf has name s dep = .ok s')
    (x : String) :
    s'.dependents x = s.dependents x ++ (if providerOf dep == some x && x != name then
      [name] else []) := by
  unfold linkDep at h
  cases hprov : providerOf dep with
  | none =>
    rw [hprov] at h
    dsimp only at h
    split at h
    · cases h
      simp
    · cases h
  | some y =>
    rw [hprov] at h
    dsimp only at h
    split at h
    · rename_i hself
      cases h
      by_cases hx : y = x
      · simp [hx.symm,hself]
      · simp [hx]
    · rename_i hother
      cases h
      by_cases hx : y = x
      · subst hx
        simp [hother]
      · simp [hx,Function.update_of_ne (fun heq => hx (Eq.symm heq))]

lemma linkDep_balanced {nodes : Finset String} {name dep : String}
    (hprov : ∀ x, providerOf dep = some x → x ∈ nodes) (hs : Balanced nodes s)
    (h : linkDep providerOf has name s dep = .ok s') : Balanced nodes s' := by
  unfold linkDep at h
  split at h
  · split at h
    · cases h
      exact hs
    · cases h
  · rename_i x hx
    split at h
    · cases h
      exact hs
    · cases h
      intro n
      dsimp only
      have hcount : ∀ y, (Function.update s.dependents x (s.dependents x ++ [name]) y).count n
          = (s.dependents y).count n+(if y = x then [name].count n else 0) := by
        intro y
        by_cases hy : y = x
        · rw [hy,Function.update_self,List.count_append,if_pos rfl]
        · rw [Function.update_of_ne hy,if_neg hy,Nat.add_zero]
      simp only [hcount,Finset.sum_add_distrib,Finset.sum_ite_eq',if_pos (hprov x hx)]
      by_cases hn : n = name
      · rw [hn,Function.update_self,hs name,List.count_singleton_self]
      · rw [Function.update_of_ne hn,hs n,List.count_singleton,
          if_neg (by simpa using fun heq => hn (Eq.symm heq)),Nat.add_zero]

lemma link_ok {p : Plugin σ δ} : (∃ s', link providerOf has s p = .ok s') ↔ ∀ dep ∈ p.deps,
    has dep = true ∨ (providerOf dep).isSome := by
  unfold link
  induction p.deps generalizing s with
  | nil => exact ⟨fun _ _ h => (by cases h),fun _ => ⟨s,rfl⟩⟩
  | cons dep deps ih =>
    simp only [foldlM_cons_ok,List.forall_mem_cons]
    constructor
    · rintro ⟨s',s1,hone,hrest⟩
      exact ⟨linkDep_ok.mp ⟨s1,hone⟩,ih.mp ⟨s',hrest⟩⟩
    · rintro ⟨hone,hrest⟩
      obtain ⟨s1,hs1⟩ := linkDep_ok.mpr hone
      obtain ⟨s',hs'⟩ := (@ih s1).mpr hrest
      exact ⟨s',s1,hs1,hs'⟩

lemma link_dependents {p : Plugin σ δ} (h : link providerOf has s p = .ok s') (x : String) :
    s'.dependents x = s.dependents x ++ behind providerOf p x := by
  unfold link at h
  unfold behind
  generalize p.deps = deps at h ⊢
  induction deps generalizing s with
  | nil =>
    cases h
    exact (List.append_nil _).symm
  | cons dep deps ih =>
    obtain ⟨s1,hone,hrest⟩ := foldlM_cons_ok.mp h
    rw [ih hrest,linkDep_dependents hone x,List.filter_cons,List.append_assoc]
    split
    · rfl
    · rfl

lemma link_balanced {nodes : Finset String} {p : Plugin σ δ}
    (hprov : ∀ dep x, providerOf dep = some x → x ∈ nodes) (hs : Balanced nodes s)
    (h : link providerOf has s p = .ok s') : Balanced nodes s' := by
  unfold link at h
  generalize p.deps = deps at h
  induction deps generalizing s with
  | nil =>
    cases h
    exact hs
  | cons dep deps ih =>
    obtain ⟨s1,hone,hrest⟩ := foldlM_cons_ok.mp h
    exact ih (linkDep_balanced (hprov dep) hs hone) hrest

lemma linkAll_ok : (∃ s', plugins.foldlM (link providerOf has) s = .ok s') ↔ ∀ p ∈ plugins,
    ∀ dep ∈ p.deps, has dep = true ∨ (providerOf dep).isSome := by
  induction plugins generalizing s with
  | nil => exact ⟨fun _ _ h => (by cases h),fun _ => ⟨s,rfl⟩⟩
  | cons p plugins ih =>
    simp only [foldlM_cons_ok,List.forall_mem_cons]
    constructor
    · rintro ⟨s',s1,hone,hrest⟩
      exact ⟨link_ok.mp ⟨s1,hone⟩,ih.mp ⟨s',hrest⟩⟩
    · rintro ⟨hone,hrest⟩
      obtain ⟨s1,hs1⟩ := link_ok.mpr hone
      obtain ⟨s',hs'⟩ := (@ih s1).mpr hrest
      exact ⟨s',s1,hs1,hs'⟩

lemma linkAll_dependents (h : plugins.foldlM (link providerOf has) s = .ok s') (x : String) :
    s'.dependents x = s.dependents x ++ plugins.flatMap (fun p => behind providerOf p x) := by
  induction plugins generalizing s with
  | nil =>
    cases h
    exact (List.append_nil _).symm
  | cons p plugins ih =>
    obtain ⟨s1,hone,hrest⟩ := foldlM_cons_ok.mp h
    rw [ih hrest,link_dependents hone x,List.flatMap_cons,List.append_assoc]

lemma linkAll_balanced {nodes : Finset String} (hprov : ∀ dep x, providerOf dep = some x →
    x ∈ nodes) (hs : Balanced nodes s)
    (h : plugins.foldlM (link providerOf has) s = .ok s') : Balanced nodes s' := by
  induction plugins generalizing s with
  | nil =>
    cases h
    exact hs
  | cons p plugins ih =>
    obtain ⟨s1,hone,hrest⟩ := foldlM_cons_ok.mp h
    exact ih (link_balanced hprov hs hone) hrest

end links

section ordered

/-- The nodes of a boot. -/
def nodes (plugins : List (Plugin σ δ)) : Finset String := (plugins.map Plugin.name).toFinset

@[simp] lemma mem_nodes {n : String} : n ∈ nodes plugins ↔ ∃ p ∈ plugins, p.name = n := by
  unfold nodes
  rw [List.mem_toFinset,List.mem_map]

@[simp] lemma mem_behind {providerOf : String → Option String} {p : Plugin σ δ} {x n : String} :
    n ∈ behind providerOf p x ↔ p.name = n ∧ x ≠ n ∧ ∃ dep ∈ p.deps, providerOf dep = some x := by
  unfold behind
  simp only [List.mem_map,List.mem_filter,Bool.and_eq_true,beq_iff_eq,bne_iff_ne]
  constructor
  · rintro ⟨dep,⟨hdep,hx,hne⟩,rfl⟩
    exact ⟨rfl,hne,dep,hdep,hx⟩
  · rintro ⟨rfl,hne,dep,hdep,hx⟩
    exact ⟨dep,⟨hdep,hx,hne⟩,rfl⟩

/-- What the two passes over the plugins leave, when neither fails. -/
structure Linked (plugins : List (Plugin σ δ)) (s : Links) : Prop where
  dependents : ∀ x, s.dependents x = plugins.flatMap (fun p => behind (provider plugins) p x)
  balanced : Balanced (nodes plugins) s

lemma provider_mem {dep x : String} (h : provider plugins dep = some x) : x ∈ nodes plugins := by
  unfold provider at h
  obtain ⟨p,hp,rfl⟩ := Option.map_eq_some_iff.mp h
  exact mem_nodes.mpr ⟨p,List.mem_of_find?_eq_some hp,rfl⟩

lemma provider_isSome {key : String} :
    (provider plugins key).isSome ↔ ∃ q ∈ plugins, key ∈ q.provides := by
  unfold provider
  rw [Option.isSome_map,List.find?_isSome]
  simp only [List.contains_iff_mem]

lemma linked_of_ok {s : Links}
    (h : plugins.foldlM (link (provider plugins) has) ⟨fun _ => 0,fun _ => []⟩ = .ok s) :
    Linked plugins s := by
  refine ⟨fun x => by rw [linkAll_dependents h x,List.nil_append],
    linkAll_balanced (fun _ _ hx => provider_mem hx) ?_ h⟩
  intro n
  simp

lemma edge_iff (hkeys : (plugins.flatMap Plugin.provides).Nodup) {s : Links}
    (hs : Linked plugins s) : Edge (nodes plugins) s.dependents = Before plugins := by
  funext a b
  apply propext
  unfold Edge Before
  rw [hs.dependents a,List.mem_flatMap]
  simp only [mem_behind,provider_eq_some hkeys]
  constructor
  · rintro ⟨-,p,hp,rfl,hne,dep,hdep,q,hq,rfl,hkey⟩
    exact ⟨hne,q,hq,p,hp,rfl,rfl,dep,hdep,hkey⟩
  · rintro ⟨hne,q,hq,p,hp,rfl,rfl,dep,hdep,hkey⟩
    exact ⟨mem_nodes.mpr ⟨q,hq,rfl⟩,p,hp,rfl,hne,dep,hdep,q,hq,rfl,hkey⟩

/-- The counting run of a boot ends with nothing ready and its account in order. -/
lemma bootOrder_inv (hnames : (plugins.map Plugin.name).Nodup) {s : Links} (hs : Linked plugins s) :
    Inv (nodes plugins) s.dependents (bootOrder (plugins.map Plugin.name) s) ∧
    (bootOrder (plugins.map Plugin.name) s).ready = [] := by
  have hcard : (nodes plugins).card = (plugins.map Plugin.name).length :=
    List.toFinset_card_of_nodup hnames
  unfold bootOrder
  apply Inv.order
  · intro x _ n hn
    rw [hs.dependents x,List.mem_flatMap] at hn
    obtain ⟨p,hp,hn⟩ := hn
    exact mem_nodes.mpr ⟨p,hp,(mem_behind.mp hn).1⟩
  · apply Inv.start hnames
    · intro n
      exact (List.mem_toFinset).symm
    · intro n _
      rw [hs.balanced n]
      simp [pending]
  · rw [hcard]
    exact Nat.le_add_left _ _

variable {out : List (Plugin σ δ)}

/-- The passes of a sort that meets no error, and what it returns. -/
lemma topoSort_eq (hnames : (plugins.map Plugin.name).Nodup)
    (hkeys : (plugins.flatMap Plugin.provides).Nodup)
    (hdeps : ∀ p ∈ plugins, ∀ dep ∈ p.deps, has dep = true ∨ ∃ q ∈ plugins, dep ∈ q.provides) :
    ∃ s, Linked plugins s ∧ topoSort plugins has
      = if ((bootOrder (plugins.map Plugin.name) s).out.filterMap (named plugins)).length ≠
      plugins.length
        then .error (.cycle (sorted
          ((plugins.map Plugin.name).filter
          (fun n => 0 < (bootOrder (plugins.map Plugin.name) s).waits n))))
        else .ok ((bootOrder (plugins.map Plugin.name) s).out.filterMap (named plugins)) := by
  have hdeclared : plugins.foldlM declare ⟨fun _ => none,fun _ => none⟩ = .ok ⟨named plugins,
    provider plugins⟩ :=
    declareAll_ok.mpr ⟨hnames,fun _ _ => rfl,hkeys,fun _ _ => rfl,by simp only [Option.or_none]⟩
  obtain ⟨s,hs⟩ := (@linkAll_ok _ _ plugins has (provider plugins) ⟨fun _ => 0,fun _ => []⟩).mpr
    (fun p hp dep hdep => by
    rw [provider_isSome]
    exact hdeps p hp dep hdep)
  refine ⟨s,linked_of_ok hs,?_⟩
  unfold topoSort
  rw [hdeclared]
  change (do
    let s ← plugins.foldlM (link (provider plugins) has) ⟨fun _ => 0,fun _ => []⟩
    _) = _
  rw [hs]
  rfl

lemma exists_of_foldlM_error {α β ε : Type} {f : β → α → Except ε β} {l : List α} {b : β} {e : ε}
    (h : l.foldlM f b = .error e) :
    ∃ b' a, f b' a = .error e := by
  induction l generalizing b with
  | nil => cases h
  | cons a l ih =>
    rw [List.foldlM_cons] at h
    cases hfa : f b a with
    | error e' =>
      rw [hfa] at h
      cases h
      exact ⟨b,a,hfa⟩
    | ok b' =>
      rw [hfa] at h
      exact ih h

lemma declare_error {d : Declared σ δ} {p : Plugin σ δ} {stuck : List String} :
    declare d p ≠ .error (.cycle stuck) := by
  unfold declare
  split
  · intro h
    cases h
  · intro h
    cases hfold : p.provides.foldlM (declareKey p.name) d.providerOf with
    | ok f =>
      rw [hfold] at h
      cases h
    | error e =>
      rw [hfold] at h
      cases h
      obtain ⟨f,key,hkey⟩ := exists_of_foldlM_error hfold
      unfold declareKey at hkey
      split at hkey
      · cases hkey
      · cases hkey

lemma link_error {providerOf : String → Option String} {s : Links} {p : Plugin σ δ}
    {stuck : List String} : link providerOf has s p ≠ .error (.cycle stuck) := by
  intro h
  obtain ⟨s',dep,hdep⟩ := exists_of_foldlM_error h
  unfold linkDep at hdep
  split at hdep
  · split at hdep
    · cases hdep
    · cases hdep
  · split at hdep
    · cases hdep
    · cases hdep

/-- A sort that succeeds, or stops at a cycle, has met no error in the passes before. -/
lemma of_topoSort {r : Except Failure (List (Plugin σ δ))} (h : topoSort plugins has = r)
    (hr : (∃ out, r = .ok out) ∨ ∃ stuck, r = .error (.cycle stuck)) :
    (plugins.map Plugin.name).Nodup ∧ (plugins.flatMap Plugin.provides).Nodup ∧ ∀ p ∈ plugins,
    ∀ dep ∈ p.deps, has dep = true ∨ ∃ q ∈ plugins, dep ∈ q.provides := by
  unfold topoSort at h
  cases hdeclared : plugins.foldlM declare ⟨fun _ => none,fun _ => none⟩ with
  | error e =>
    rw [hdeclared] at h
    subst h
    obtain ⟨out,hout⟩ | ⟨stuck,hstuck⟩ := hr
    · cases hout
    · cases hstuck
      obtain ⟨d,p,hp⟩ := exists_of_foldlM_error hdeclared
      exact absurd hp declare_error
  | ok d =>
    obtain ⟨hnames,-,hkeys,-,rfl⟩ := declareAll_ok.mp hdeclared
    refine ⟨hnames,hkeys,?_⟩
    simp only [Option.or_none] at hdeclared
    rw [hdeclared] at h
    cases hlinked : plugins.foldlM (link (provider plugins) has) ⟨fun _ => 0,fun _ => []⟩ with
    | error e =>
      change (do
        let s ← plugins.foldlM (link (provider plugins) has) ⟨fun _ => 0,fun _ => []⟩
        _) = _ at h
      rw [hlinked] at h
      subst h
      obtain ⟨out,hout⟩ | ⟨stuck,hstuck⟩ := hr
      · cases hout
      · cases hstuck
        obtain ⟨s,p,hp⟩ := exists_of_foldlM_error hlinked
        exact absurd hp link_error
    | ok s =>
      intro p hp dep hdep
      have hok := linkAll_ok.mp ⟨s,hlinked⟩ p hp dep hdep
      rwa [provider_isSome] at hok

lemma filterMap_named (hnames : (plugins.map Plugin.name).Nodup) {l : List String}
    (hl : ∀ n ∈ l, n ∈ nodes plugins) :
    (l.filterMap (named plugins)).map Plugin.name = l := by
  induction l with
  | nil => rfl
  | cons n l ih =>
    obtain ⟨p,hp,hn⟩ := mem_nodes.mp (hl n List.mem_cons_self)
    rw [List.filterMap_cons,(named_eq_some hnames).mpr ⟨hp,hn⟩]
    dsimp only
    rw [List.map_cons,hn,ih (fun m hm => hl m (List.mem_cons_of_mem _ hm))]

/-- No plugin comes before one whose service it needs. -/
lemma pairwise_of_inv {s : Links} {q : Queue String} (h : Inv (nodes plugins) s.dependents q) :
    q.out.Pairwise (fun a b => ¬ Edge (nodes plugins) s.dependents b a) := by
  have hnodup : q.out.Nodup := (List.nodup_append.mp h.nodup).1
  rw [List.pairwise_iff_getElem]
  intro i j hi hj hij hedge
  obtain ⟨-,hlt⟩ := h.before _ _ hedge (List.getElem_mem hi)
  rw [hnodup.idxOf_getElem i hi,hnodup.idxOf_getElem j hj] at hlt
  omega

lemma transGen_before_mem {a b : String} (h : Relation.TransGen (Before plugins) a b) :
    a ∈ nodes plugins := by
  obtain ⟨c,⟨-,q,hq,-,-,hname,-⟩,-⟩ := Relation.TransGen.head'_iff.mp h
  exact mem_nodes.mpr ⟨q,hq,hname⟩

/-- When the passes before meet no error, the sort succeeds or names what a cycle leads to. -/
lemma topoSort_cases (hnames : (plugins.map Plugin.name).Nodup)
    (hkeys : (plugins.flatMap Plugin.provides).Nodup)
    (hdeps : ∀ p ∈ plugins, ∀ dep ∈ p.deps, has dep = true ∨ ∃ q ∈ plugins, dep ∈ q.provides) :
    ((∀ n, ¬ Relation.TransGen (Before plugins) n n)
      ∧ ∃ out, topoSort plugins has = .ok out ∧ out.Perm plugins ∧
      out.Pairwise (fun p q => ¬ Before plugins q.name p.name))
    ∨ ((¬ ∀ n, ¬ Relation.TransGen (Before plugins) n n)
      ∧ ∃ stuck, topoSort plugins has = .error (.cycle stuck) ∧ ∀ n, n ∈ stuck ↔
        (∃ p ∈ plugins, p.name = n) ∧ ∃ c, Relation.TransGen (Before plugins) c c ∧
        Relation.ReflTransGen (Before plugins) c n) := by
  obtain ⟨s,hs,heq⟩ := topoSort_eq hnames hkeys hdeps
  obtain ⟨hinv,hready⟩ := bootOrder_inv hnames hs
  generalize bootOrder (plugins.map Plugin.name) s = q at hinv hready heq
  have hedge := edge_iff hkeys hs
  have hmap : (q.out.filterMap (named plugins)).map Plugin.name = q.out :=
    filterMap_named hnames (fun n hn => hinv.sub n (List.mem_append_left _ hn))
  have hlen : (q.out.filterMap (named plugins)).length = q.out.length := by
    rw [← List.length_map,hmap]
  have hcard : (nodes plugins).card = plugins.length := by
    unfold nodes
    rw [List.toFinset_card_of_nodup hnames,List.length_map]
  have hacyclic : Acyclic (nodes plugins) s.dependents ↔ ∀ n,
    ¬ Relation.TransGen (Before plugins) n n := by
    unfold Acyclic
    rw [hedge]
    exact ⟨fun h n hc => h n (transGen_before_mem hc) hc,fun h n _ => h n⟩
  have hcomplete := complete_iff hinv hready
  rw [hacyclic,hcard] at hcomplete
  rw [heq,hlen]
  by_cases hall : q.out.length = plugins.length
  · rw [if_neg (not_not_intro hall)]
    refine Or.inl ⟨hcomplete.mp hall,_,rfl,?_,?_⟩
    · rw [List.perm_ext_iff_of_nodup (List.Nodup.of_map Plugin.name
        (by rw [hmap]; exact (List.nodup_append.mp hinv.nodup).1))
        (List.Nodup.of_map Plugin.name hnames)]
      intro p
      rw [List.mem_filterMap]
      constructor
      · rintro ⟨n,-,hn⟩
        exact ((named_eq_some hnames).mp hn).1
      · intro hp
        refine ⟨p.name,?_,(named_eq_some hnames).mpr ⟨hp,rfl⟩⟩
        by_contra hout
        obtain ⟨c,hc,hcc,-⟩ := (left_iff hinv hready (mem_nodes.mpr ⟨p,hp,rfl⟩)).mp hout
        exact hacyclic.mpr (hcomplete.mp hall) c hc hcc
    · have hpair := pairwise_of_inv hinv
      rw [hedge,← hmap,List.pairwise_map] at hpair
      exact hpair
  · rw [if_pos hall]
    refine Or.inr ⟨fun h => hall (hcomplete.mpr h),_,rfl,fun n => ?_⟩
    rw [mem_sorted,List.mem_filter,decide_eq_true_iff,List.mem_map]
    apply and_congr_right
    intro hn
    have hnode : n ∈ nodes plugins := mem_nodes.mpr hn
    have hleft : 0 < q.waits n ↔ n ∉ q.out := by
      constructor
      · intro hpos hin
        have := hinv.done n hin
        omega
      · intro hout
        apply Nat.pos_of_ne_zero
        intro hzero
        have hin := (hinv.ready n hnode hout).mpr hzero
        rw [hready] at hin
        cases hin
    rw [hleft,left_iff hinv hready hnode,hedge]
    exact ⟨fun ⟨c,_,hc⟩ => ⟨c,hc⟩,fun ⟨c,hc⟩ => ⟨c,transGen_before_mem hc.1,hc⟩⟩

lemma topoSort_ok (hout : topoSort plugins has = .ok out) :
    Bootable plugins has ∧ out.Perm plugins ∧
    out.Pairwise (fun p q => ¬ Before plugins q.name p.name) := by
  obtain ⟨hnames,hkeys,hdeps⟩ := of_topoSort hout (Or.inl ⟨out,rfl⟩)
  obtain ⟨hacyclic,out',hout',hspec⟩ | ⟨-,stuck,hstuck,-⟩ := topoSort_cases hnames hkeys hdeps
  · rw [hout] at hout'
    cases hout'
    exact ⟨⟨hnames,hkeys,hdeps,hacyclic⟩,hspec⟩
  · rw [hout] at hstuck
    cases hstuck

/-- A boot is put in order exactly when its names and services are there once, its needs are met and
none of them is circular; then every provider is before the plugins that need it. A boot that stops
at a cycle names the plugins of the cycles and those behind them. -/
theorem topoSort_spec (plugins : List (Plugin σ δ)) (has : String → Bool) :
    ((∃ out, topoSort plugins has = .ok out) ↔ Bootable plugins has)
      ∧ (∀ out, topoSort plugins has = .ok out → out.Perm plugins ∧
        out.Pairwise (fun p q => ¬ Before plugins q.name p.name))
      ∧ ∀ stuck, topoSort plugins has = .error (.cycle stuck) → ∀ n, n ∈ stuck ↔
        (∃ p ∈ plugins, p.name = n) ∧ ∃ c, Relation.TransGen (Before plugins) c c ∧
        Relation.ReflTransGen (Before plugins) c n := by
  refine ⟨⟨?_,?_⟩,fun out hout => (topoSort_ok hout).2,?_⟩
  · rintro ⟨out,hout⟩
    exact (topoSort_ok hout).1
  · rintro ⟨hnames,hkeys,hdeps,hacyclic⟩
    obtain ⟨-,out,hout,-⟩ | ⟨hcyclic,-⟩ := topoSort_cases hnames hkeys hdeps
    · exact ⟨out,hout⟩
    · exact absurd hacyclic hcyclic
  · intro stuck hstuck
    obtain ⟨hnames,hkeys,hdeps⟩ := of_topoSort hstuck (Or.inr ⟨stuck,rfl⟩)
    obtain ⟨-,out,hout,-⟩ | ⟨-,stuck',hstuck',hspec⟩ := topoSort_cases hnames hkeys hdeps
    · rw [hstuck] at hout
      cases hout
    · rw [hstuck] at hstuck'
      cases hstuck'
      exact hspec

lemma provider_perm {plugins' : List (Plugin σ δ)} (hkeys : (plugins.flatMap Plugin.provides).Nodup)
    (h : plugins.Perm plugins') : provider plugins' = provider plugins := by
  have hkeys' : (plugins'.flatMap Plugin.provides).Nodup :=
    (h.flatMap_right Plugin.provides).nodup_iff.mp hkeys
  funext key
  apply Option.ext
  intro n
  rw [provider_eq_some hkeys,provider_eq_some hkeys']
  simp only [h.mem_iff]

lemma named_perm {plugins' : List (Plugin σ δ)} (hnames : (plugins.map Plugin.name).Nodup)
    (h : plugins.Perm plugins') : named plugins' = named plugins := by
  have hnames' : (plugins'.map Plugin.name).Nodup := (h.map Plugin.name).nodup_iff.mp hnames
  funext n
  apply Option.ext
  intro p
  rw [named_eq_some hnames,named_eq_some hnames',h.mem_iff]

/-- The boot order does not depend on the order in which the plugins are given. -/
theorem topoSort_perm {plugins plugins' : List (Plugin σ δ)} {has : String → Bool}
    {out : List (Plugin σ δ)} (h : plugins.Perm plugins') (hout : topoSort plugins has = .ok out) :
    topoSort plugins' has = .ok out := by
  obtain ⟨hnames,hkeys,hdeps⟩ := of_topoSort hout (Or.inl ⟨out,rfl⟩)
  have hnames' : (plugins'.map Plugin.name).Nodup := (h.map Plugin.name).nodup_iff.mp hnames
  have hkeys' : (plugins'.flatMap Plugin.provides).Nodup :=
    (h.flatMap_right Plugin.provides).nodup_iff.mp hkeys
  have hdeps' : ∀ p ∈ plugins', ∀ dep ∈ p.deps, has dep = true ∨ ∃ q ∈ plugins',
    dep ∈ q.provides := by
    intro p hp dep hdep
    simp only [← h.mem_iff] at hp ⊢
    exact hdeps p hp dep hdep
  obtain ⟨s,hs,heq⟩ := topoSort_eq hnames hkeys hdeps
  obtain ⟨s',hs',heq'⟩ := topoSort_eq hnames' hkeys' hdeps'
  -- the lists behind a provider are the same up to order, and so are the counts
  have hbehind : ∀ x, (s'.dependents x).Perm (s.dependents x) := by
    intro x
    rw [hs.dependents x,hs'.dependents x,provider_perm hkeys h]
    exact h.symm.flatMap_right _
  have hnodes : nodes plugins' = nodes plugins := by
    ext n
    simp only [mem_nodes,h.mem_iff]
  have hdegree : s'.indegree = s.indegree := by
    funext n
    rw [hs.balanced n,hs'.balanced n,hnodes]
    exact Finset.sum_congr rfl (fun x _ => (hbehind x).count_eq n)
  have hready : sorted ((plugins'.map Plugin.name).filter (fun n => s.indegree n = 0)) = sorted
    ((plugins.map Plugin.name).filter (fun n => s.indegree n = 0)) :=
    sorted_congr ((h.symm.map Plugin.name).filter _)
  have hboot : bootOrder (plugins'.map Plugin.name) s' = bootOrder (plugins.map Plugin.name) s := by
    unfold bootOrder
    rw [hdegree,hready,order_congr hbehind,List.length_map,List.length_map,h.length_eq]
  rw [hout] at heq
  rw [heq',hboot,named_perm hnames h,← h.length_eq]
  split at heq
  · cases heq
  · rename_i hlen
    rw [if_neg hlen,heq]

/-- Two plugins of which one needs the other, given either way. -/
theorem topoSort_perm_swapped : ∃ out : List (Plugin ℕ ℕ),
    topoSort [⟨"app",[],["db"],.done none⟩,⟨"store",["db"],[],.done none⟩] (fun _ =>
      false) = .ok out
      ∧ topoSort [⟨"store",["db"],[],.done none⟩,⟨"app",[],["db"],.done none⟩] (fun _ =>
        false) = .ok out := by
  have hbefore : ∀ a b, Before [(⟨"app",[],["db"],.done none⟩ : Plugin ℕ ℕ),
    ⟨"store",["db"],[],.done none⟩] a b → a = "store" ∧ b = "app" := by
    rintro a b ⟨hne,q,hq,p,hp,rfl,rfl,dep,hdep,hkey⟩
    obtain rfl | hq := List.mem_cons.mp hq
    · cases hkey
    · obtain rfl | hp := List.mem_cons.mp hp
      · rw [List.mem_singleton.mp hq]
        exact ⟨rfl,rfl⟩
      · rw [List.mem_singleton.mp hp] at hdep
        cases hdep
  obtain ⟨-,out,hout,-⟩ | ⟨hcyclic,-⟩ :=
    @topoSort_cases _ _ [(⟨"app",[],["db"],.done none⟩ : Plugin ℕ ℕ),
    ⟨"store",["db"],[],.done none⟩] (fun _ => false)
    (by decide) (by decide) (by simp)
  · exact ⟨out,hout,topoSort_perm (List.Perm.swap _ _ []) hout⟩
  · refine absurd (fun n hc => ?_) hcyclic
    obtain ⟨c,hnc,-⟩ := Relation.TransGen.head'_iff.mp hc
    obtain ⟨d,-,hdn⟩ := Relation.TransGen.tail'_iff.mp hc
    have hstore := (hbefore n c hnc).1
    rw [(hbefore d n hdn).2] at hstore
    exact absurd hstore (by decide)

end ordered
end Manvi.Kernel
