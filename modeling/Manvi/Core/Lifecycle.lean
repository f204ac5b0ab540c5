import Manvi.Core.Teardown

/-! Every run of boots, unloads and closes: a loaded plugin has what it needs, and what is gone is
gone whole. -/
namespace Manvi.Kernel

variable {σ δ : Type} {r r' : Registry σ δ}

/-- What a plugin needs is provided by itself or by a plugin loaded before it. -/
def Met (order : List (Loaded δ)) : Prop :=
  ∀ before l after, order = before ++ l :: after → ∀ dep ∈ l.deps, ∃ l' ∈ before ++ [l],
  Effect.provided dep ∈ l'.effects

/-- What holds of a registry between two calls. -/
structure Sound (r : Registry σ δ) : Prop where
  holds : Holds r (held r.order)
  names : (r.order.map Loaded.name).Nodup
  met : Met r.order

inductive Act (σ δ : Type)
  | boot (plugins : List (Plugin σ δ))
  | unload (name : String)
  | close

def step (r : Registry σ δ) : Act σ δ → Registry σ δ
  | .boot plugins => (boot r plugins).1
  | .unload name => match unload r name with
    | .ok r' => r'
    | .error _ => r
  | .close => close r

/-- No boot brings the name of a plugin that is loaded at that moment. -/
def Fresh : Registry σ δ → List (Act σ δ) → Prop
  | _,[] => True
  | r,a :: acts => (∀ plugins, a = .boot plugins → ∀ p ∈ plugins,
    p.name ∉ r.order.map Loaded.name) ∧ Fresh (step r a) acts

@[simp] lemma mem_held {order : List (Loaded δ)} {n key : String} :
    (n,Effect.provided key) ∈ held order ↔ ∃ l ∈ order, l.name = n ∧
    Effect.provided key ∈ l.effects := by
  unfold held Loaded.undoes
  simp only [List.mem_flatMap,List.mem_map,List.mem_append]
  constructor
  · rintro ⟨l,hl,e,hin | ⟨d,-,rfl⟩,heq⟩
    · cases heq
      exact ⟨l,hl,rfl,hin⟩
    · cases heq
  · rintro ⟨l,hl,rfl,hin⟩
    exact ⟨l,hl,_,Or.inl hin,rfl⟩

lemma Holds.has_iff (h : Holds r (held r.order)) {key : String} :
    r.has key = true ↔ ∃ l ∈ r.order, Effect.provided key ∈ l.effects := by
  unfold Registry.has
  rw [h.service key,Option.isSome_iff_exists]
  simp only [h.owner,mem_held]
  exact ⟨fun ⟨_,l,hl,_,hin⟩ => ⟨l,hl,hin⟩,fun ⟨l,hl,hin⟩ => ⟨l.name,l,hl,rfl,hin⟩⟩

section boot

lemma Met.snoc {order : List (Loaded δ)} {l : Loaded δ} (h : Met order)
    (hl : ∀ dep ∈ l.deps, ∃ l' ∈ order ++ [l], Effect.provided dep ∈ l'.effects) :
    Met (order ++ [l]) := by
  intro before x after heq
  obtain rfl | ⟨after,last,rfl⟩ := List.eq_nil_or_concat' after
  · obtain ⟨rfl,hx⟩ := List.append_inj' heq rfl
    cases hx
    exact hl
  · rw [← List.cons_append,← List.append_assoc] at heq
    obtain ⟨heq,-⟩ := List.append_inj' heq rfl
    exact h before x after heq

/-- What a plugin of an order needs is there already, or provided by itself or by one before it. -/
def Ready (out : List (Plugin σ δ)) (has : String → Bool) : Prop :=
  ∀ before p after, out = before ++ p :: after → ∀ dep ∈ p.deps, has dep = true ∨
  ∃ q ∈ before ++ [p], dep ∈ q.provides

lemma ready_of_topoSort {plugins out : List (Plugin σ δ)} {has : String → Bool}
    (h : topoSort plugins has = .ok out) : Ready out has := by
  obtain ⟨⟨hnames,-,hdeps,-⟩,hperm,hpair⟩ := topoSort_ok h
  rintro before p after rfl dep hdep
  have hp : p ∈ plugins := hperm.subset (by simp)
  refine (hdeps p hp dep hdep).imp_right ?_
  rintro ⟨q,hq,hkey⟩
  have hbefore : q.name ≠ p.name → Before plugins q.name p.name :=
    fun hne => ⟨hne,q,hq,p,hp,rfl,rfl,dep,hdep,hkey⟩
  obtain hin | hin := List.mem_append.mp (hperm.symm.subset hq)
  · exact ⟨q,List.mem_append_left _ hin,hkey⟩
  · by_cases heq : q.name = p.name
    · rw [List.inj_on_of_nodup_map hnames hq hp heq] at hkey
      exact ⟨p,by simp,hkey⟩
    · obtain rfl | hin := List.mem_cons.mp hin
      · exact absurd rfl heq
      · exact absurd (hbefore heq)
          ((List.pairwise_cons.mp (List.pairwise_append.mp hpair).2.1).1 q hin)

/-- What applying the plugins of an order comes to: all of them are loaded, or one fails after those
before it and nothing is left. -/
inductive Applied (r : Registry σ δ) (out : List (Plugin σ δ)) :
    Registry σ δ × Option Failure → Prop
  | all {r' : Registry σ δ} (sound : Sound r')
      (order : r'.order.map Loaded.name = r.order.map Loaded.name ++ out.map Plugin.name) :
      Applied r out (r',none)
  | failed {before after : List (Plugin σ δ)} {p : Plugin σ δ} {r1 r2 r' : Registry σ δ}
      {cause : Failure}
      (split : out = before ++ p :: after) (first : applyAll before r = (r1,none))
      (fails : apply r1 p = (r2,some cause)) (emptied : Emptied r') :
      Applied r out (r',some (.failedToApply p.name cause))

lemma applyAll_spec {out : List (Plugin σ δ)} (h : Sound r)
    (hnames : (r.order.map Loaded.name ++ out.map Plugin.name).Nodup) (hready : Ready out r.has) :
    Applied r out (applyAll out r) := by
  induction out generalizing r with
  | nil => exact .all h (List.append_nil _).symm
  | cons p out ih =>
    unfold applyAll
    obtain ⟨l,r1,happly,hname,hdeps,horder,hholds,hprovides,hhas⟩ | ⟨r1,err,happly,horder,hholds⟩ :=
      apply_spec h.holds p
    · have hall : r1.order.map Loaded.name = r.order.map Loaded.name ++ [p.name] := by
        rw [horder,List.map_append,List.map_singleton,hname]
      have hsnoc : (r1.order.map Loaded.name ++ out.map Plugin.name).Nodup := by
        rw [hall,List.append_assoc]
        exact hnames
      have hmet : Met r1.order := by
        rw [horder]
        apply h.met.snoc
        intro dep hdep
        rw [hdeps] at hdep
        have hthere : r1.has dep = true := by
          obtain hold | ⟨q,hq,hkey⟩ := hready [] p out rfl dep hdep
          · exact hhas dep hold
          · rw [List.nil_append,List.mem_singleton] at hq
            rw [hq] at hkey
            exact hprovides dep hkey
        obtain ⟨l',hl',hin⟩ := hholds.has_iff.mp hthere
        exact ⟨l',horder ▸ hl',hin⟩
      have hrest : Ready out r1.has := by
        rintro before q after rfl dep hdep
        obtain hold | ⟨x,hx,hkey⟩ := hready (p :: before) q after rfl dep hdep
        · exact Or.inl (hhas dep hold)
        · rw [List.cons_append] at hx
          obtain rfl | hx := List.mem_cons.mp hx
          · exact Or.inl (hprovides dep hkey)
          · exact Or.inr ⟨x,hx,hkey⟩
      rw [happly]
      have happlied := ih ⟨hholds,(List.nodup_append.mp hsnoc).1,hmet⟩ hsnoc hrest
      dsimp only
      generalize applyAll out r1 = result at happlied ⊢
      cases happlied with
      | all sound order =>
        refine .all sound ?_
        rw [order,hall,List.append_assoc]
        rfl
      | @failed before after q r2 r3 r' cause split first fails emptied =>
        have hfirst : applyAll (p :: before) r = (r2,none) := by
          rw [applyAll,happly]
          exact first
        exact .failed (congrArg (List.cons p) split) hfirst fails emptied
    · rw [happly]
      exact .failed (List.nil_append _).symm rfl happly (close_emptied hholds)

/-- What a boot comes to: it is refused and changes nothing, or its plugins are applied in boot
order. -/
inductive Booted (r : Registry σ δ) (plugins : List (Plugin σ δ)) :
    Registry σ δ × Option Failure → Prop
  | refused {err : Failure} (sort : topoSort plugins r.has = .error err) :
      Booted r plugins (r,some err)
  | sorted {out : List (Plugin σ δ)} {result : Registry σ δ × Option Failure}
      (sort : topoSort plugins r.has = .ok out) (applied : Applied r out result) :
      Booted r plugins result

lemma boot_booted (h : Sound r) {plugins : List (Plugin σ δ)}
    (hfresh : ∀ p ∈ plugins, p.name ∉ r.order.map Loaded.name) :
    Booted r plugins (boot r plugins) := by
  unfold boot
  cases hsort : topoSort plugins r.has with
  | error err => exact .refused hsort
  | ok out =>
    obtain ⟨hbootable,hperm,-⟩ := topoSort_ok hsort
    have hnames : (r.order.map Loaded.name ++ out.map Plugin.name).Nodup := by
      refine List.nodup_append.mpr ⟨h.names,(hperm.map Plugin.name).nodup_iff.mpr hbootable.names,
        fun a ha b hb hab => ?_⟩
      obtain ⟨p,hp,rfl⟩ := List.mem_map.mp hb
      exact hfresh p (hperm.subset hp) (hab ▸ ha)
    exact .sorted hsort (applyAll_spec h hnames (ready_of_topoSort hsort))

end boot

lemma Emptied.sound (h : Emptied r) : Sound r := by
  refine ⟨?_,?_,?_⟩
  · rw [h.order]
    refine ⟨List.nodup_nil,fun key n => ?_,fun key => ?_,?_⟩
    · rw [h.owners key]
      exact ⟨fun hn => (by cases hn),fun hn => (by cases hn)⟩
    · rw [h.services key,h.owners key]
      rfl
    · change r.recorded.Perm (r.undone ++ [])
      rw [List.append_nil]
      exact h.account
  · rw [h.order]
    exact List.nodup_nil
  · rw [h.order]
    intro before l after heq
    cases before with
    | nil => cases heq
    | cons x before => cases heq

section unload

/-- One loaded plugin owns a service that another one needs. -/
def Needs (r : Registry σ δ) (a b : String) : Prop := ∃ l ∈ r.order, l.name = b ∧ ∃ dep ∈ l.deps,
    r.owners dep = some a

lemma Sound.owner (h : Sound r) {l : Loaded δ} (hl : l ∈ r.order) {dep : String}
    (hin : Effect.provided dep ∈ l.effects) : r.owners dep = some l.name :=
  (h.holds.owner dep l.name).mpr (mem_held.mpr ⟨l,hl,rfl,hin⟩)

/-- The owner of what a plugin needs is itself or one before it. -/
lemma Sound.owner_before (h : Sound r) {before after : List (Loaded δ)} {l : Loaded δ}
    (heq : r.order = before ++ l :: after) {dep : String} (hdep : dep ∈ l.deps) :
    ∃ l' ∈ before ++ [l], r.owners dep = some l'.name := by
  obtain ⟨l',hl',hin⟩ := h.met before l after heq dep hdep
  refine ⟨l',hl',h.owner ?_ hin⟩
  rw [heq]
  obtain hl' | hl' := List.mem_append.mp hl'
  · exact List.mem_append_left _ hl'
  · rw [List.mem_singleton.mp hl']
    simp

/-- The last step to a name that is reached comes from another name. -/
lemma eq_or_needs_of_reach {name n : String} (h : Relation.ReflTransGen (Needs r) name n) :
    n = name ∨ ∃ a, a ≠ n ∧ Relation.ReflTransGen (Needs r) name a ∧ Needs r a n := by
  induction h with
  | refl => exact Or.inl rfl
  | @tail b c hb hbc ih =>
    by_cases heq : b = c
    · subst heq
      exact ih
    · exact Or.inr ⟨b,heq,hb,hbc⟩

variable {name : String}

lemma doom_iff (owners : String → Option String) (doomed : String → Bool) (l : Loaded δ)
    (n : String) :
    doom owners doomed l n = true ↔ doomed n = true ∨
    (n = l.name ∧ ∃ dep ∈ l.deps, doomed ((owners dep).getD "") = true) := by
  unfold doom
  split
  · rename_i hany
    rw [List.any_eq_true] at hany
    by_cases hn : n = l.name
    · rw [hn,Function.update_self]
      exact ⟨fun _ => Or.inr ⟨rfl,hany⟩,fun _ => rfl⟩
    · rw [Function.update_of_ne hn]
      exact ⟨Or.inl,fun h => h.resolve_right (fun h => hn h.1)⟩
  · rename_i hany
    rw [List.any_eq_true] at hany
    exact ⟨Or.inl,fun h => h.resolve_right (fun h => hany h.2)⟩

/-- One pass over the plugins from the first on finds every plugin that is reached, and no other. -/
lemma foldl_doom (h : Sound r) {before after : List (Loaded δ)} (heq : r.order = before ++ after)
    {doomed : String → Bool}
    (hsound : ∀ n, doomed n = true → Relation.ReflTransGen (Needs r) name n)
    (hname : doomed name = true)
    (hfull : ∀ l ∈ before, Relation.ReflTransGen (Needs r) name l.name → doomed l.name = true) :
    (∀ n, after.foldl (doom r.owners) doomed n = true → Relation.ReflTransGen (Needs r) name n)
      ∧ ∀ l ∈ r.order, Relation.ReflTransGen (Needs r) name l.name →
      after.foldl (doom r.owners) doomed l.name = true := by
  induction after generalizing before doomed with
  | nil =>
    rw [heq,List.append_nil]
    exact ⟨hsound,hfull⟩
  | cons l after ih =>
    have hl : l ∈ r.order := by
      rw [heq]
      simp
    have howner : ∀ dep ∈ l.deps, ∃ l' ∈ before ++ [l], r.owners dep = some l'.name :=
      fun dep hdep => h.owner_before heq hdep
    apply ih (heq.trans (List.append_cons before l after))
    · intro n hn
      obtain hn | ⟨rfl,dep,hdep,hgone⟩ := (doom_iff _ _ _ _).mp hn
      · exact hsound n hn
      · obtain ⟨l',-,hown⟩ := howner dep hdep
        rw [hown,Option.getD_some] at hgone
        exact (hsound _ hgone).tail ⟨l,hl,rfl,dep,hdep,hown⟩
    · exact (doom_iff _ _ _ _).mpr (Or.inl hname)
    · intro x hx hreach
      rw [doom_iff]
      obtain hx | hx := List.mem_append.mp hx
      · exact Or.inl (hfull x hx hreach)
      · rw [List.mem_singleton.mp hx] at hreach ⊢
        obtain heqn | ⟨a,hne,ha,l2,hl2,hname2,dep,hdep,hown⟩ := eq_or_needs_of_reach hreach
        · rw [heqn]
          exact Or.inl hname
        · rw [List.inj_on_of_nodup_map h.names hl2 hl hname2] at hdep
          obtain ⟨l',hl',hown'⟩ := howner dep hdep
          rw [hown] at hown'
          cases hown'
          refine Or.inr ⟨rfl,dep,hdep,?_⟩
          rw [hown,Option.getD_some]
          obtain hl' | hl' := List.mem_append.mp hl'
          · exact hfull l' hl' ha
          · rw [List.mem_singleton.mp hl'] at hne
            exact absurd rfl hne

/-- The plugins before the one that is unloaded need nothing of it. -/
lemma foldl_doom_before (h : Sound r) {before after : List (Loaded δ)}
    (heq : r.order = before ++ after) (hnot : ∀ l ∈ before, l.name ≠ name) :
    before.foldl (doom r.owners) (fun n => n == name) = fun n => n == name := by
  suffices hkeep : ∀ l ∈ before, doom r.owners (fun n => n == name) l = fun n => n == name by
    clear heq hnot
    induction before with
    | nil => rfl
    | cons l before ih =>
      rw [List.foldl_cons,hkeep l List.mem_cons_self]
      exact ih (fun x hx => hkeep x (List.mem_cons_of_mem _ hx))
  intro l hl
  obtain ⟨first,last,rfl⟩ := List.append_of_mem hl
  unfold doom
  rw [if_neg]
  intro hany
  obtain ⟨dep,hdep,hgone⟩ := List.any_eq_true.mp hany
  rw [List.append_assoc,List.cons_append] at heq
  obtain ⟨l',hl',hown⟩ := h.owner_before heq hdep
  rw [hown,Option.getD_some,beq_iff_eq] at hgone
  refine hnot l' ?_ hgone
  obtain hl' | hl' := List.mem_append.mp hl'
  · exact List.mem_append_left _ hl'
  · rw [List.mem_singleton.mp hl']
    simp

/-- What goes when a plugin is unloaded is what reaches it. -/
lemma doomed_iff (h : Sound r) {idx : ℕ}
    (hidx : r.order.findIdx? (fun l => l.name == name) = some idx) {l : Loaded δ}
    (hl : l ∈ r.order) :
    doomed r name idx l.name = true ↔ Relation.ReflTransGen (Needs r) name l.name := by
  obtain ⟨hlt,-,hfirst⟩ := List.findIdx?_eq_some_iff_getElem.mp hidx
  have hwhole : doomed r name idx = r.order.foldl (doom r.owners) (fun n => n == name) := by
    unfold doomed
    conv_rhs => rw [← List.take_append_drop idx r.order,List.foldl_append]
    rw [foldl_doom_before h (List.take_append_drop idx r.order).symm]
    intro x hx
    obtain ⟨j,hj,rfl⟩ := List.getElem_of_mem hx
    rw [List.length_take] at hj
    rw [List.getElem_take]
    simpa using hfirst j (by omega)
  have hpass := @foldl_doom _ _ r name h [] r.order rfl (fun n => n == name) (fun n hn => by
    rw [beq_iff_eq] at hn
    rw [hn]) (beq_self_eq_true name) (fun _ hl => (by cases hl))
  rw [hwhole]
  exact ⟨hpass.1 l.name,hpass.2 l hl⟩

/-- What unloading a plugin leaves. -/
structure Unloaded (r r' : Registry σ δ) (name : String) (gone : List (Loaded δ)) : Prop where
  order : gone.Sublist r.order
  reached : ∀ l ∈ r.order, l ∈ gone ↔ Relation.ReflTransGen (Needs r) name l.name
  kept : r'.order.Sublist r.order
  stays : ∀ l ∈ r.order, l ∈ r'.order ↔ l ∉ gone
  undone : r'.undone = r.undone ++ (gone.flatMap Loaded.disposers).reverse

lemma unload_spec (h : Sound r) (hok : unload r name = .ok r') :
    Sound r' ∧ ∃ gone, Unloaded r r' name gone := by
  unfold unload at hok
  split at hok
  · cases hok
  · rename_i idx hidx
    cases hok
    have hreach : ∀ l ∈ r.order, doomed r name idx l.name = true ↔
      Relation.ReflTransGen (Needs r) name l.name := fun l hl => doomed_iff h hidx hl
    have hgone : (r.order.reverse.filter (fun l => doomed r name idx l.name)) =
      (r.order.filter (fun l => doomed r name idx l.name)).reverse := List.filter_reverse
    have hholds : Holds ((r.order.reverse.filter (fun l => doomed r name idx l.name)).foldl tear r)
      (held (r.order.filter (fun l => !doomed r name idx l.name))) := by
      apply Holds.tearAll
      refine h.holds.perm ?_
      rw [hgone,held,held,held,← List.flatMap_append]
      apply List.Perm.flatMap_right
      exact (List.filter_append_perm (fun l => doomed r name idx l.name) r.order).symm.trans
        ((List.reverse_perm _).symm.append_right _)
    refine ⟨⟨⟨hholds.keys,hholds.owner,hholds.service,hholds.account⟩,?_,?_⟩,
      r.order.filter (fun l => doomed r name idx l.name),?_⟩
    · exact h.names.sublist (List.filter_sublist.map Loaded.name)
    · intro before l after heq dep hdep
      dsimp only at heq
      obtain ⟨front,back,horder,hfront,hback⟩ := List.filter_eq_append_iff.mp heq
      obtain ⟨skip,back,rfl,hskip,hl,-⟩ := List.filter_eq_cons_iff.mp hback
      rw [← List.append_assoc] at horder
      obtain ⟨l',hl',hin⟩ := h.met _ l back horder dep hdep
      have hmem : ∀ x ∈ front ++ skip ++ [l], x ∈ r.order := by
        intro x hx
        rw [horder,List.append_cons]
        exact List.mem_append_left _ hx
      have hlr : l ∈ r.order := hmem l (by simp)
      have hstays : doomed r name idx l'.name = false := by
        rw [← Bool.not_eq_true,hreach l' (hmem l' hl')]
        intro hreached
        have hnext := (hreach l hlr).mpr (hreached.tail ⟨l,hlr,rfl,dep,hdep,
          h.owner (hmem l' hl') hin⟩)
        rw [hnext] at hl
        cases hl
      refine ⟨l',?_,hin⟩
      rw [← hfront]
      obtain hl' | hl' := List.mem_append.mp hl'
      · obtain hl' | hl' := List.mem_append.mp hl'
        · exact List.mem_append_left _ (List.mem_filter.mpr ⟨hl',by rw [hstays]; rfl⟩)
        · exact absurd (by rw [hstays]; rfl) (hskip l' hl')
      · exact List.mem_append_right _ hl'
    · refine ⟨List.filter_sublist,fun l hl => ?_,List.filter_sublist,fun l hl => ?_,?_⟩
      · rw [List.mem_filter,hreach l hl]
        exact ⟨fun hin => hin.2,fun hin => ⟨hl,hin⟩⟩
      · dsimp only
        rw [List.mem_filter,List.mem_filter]
        simp [hl]
      · dsimp only
        rw [hgone]
        exact tearAll_undone _ r

end unload

lemma Sound.step (h : Sound r) {a : Act σ δ} (hfresh : ∀ plugins, a = .boot plugins → ∀ p ∈ plugins,
    p.name ∉ r.order.map Loaded.name) : Sound (step r a) := by
  cases a with
  | boot plugins =>
    change Sound (boot r plugins).1
    have hbooted := boot_booted h (hfresh plugins rfl)
    generalize boot r plugins = result at hbooted
    cases hbooted with
    | refused _ => exact h
    | sorted _ applied =>
      cases applied with
      | all sound _ => exact sound
      | failed _ _ _ emptied => exact emptied.sound
  | unload name =>
    unfold Kernel.step
    dsimp only
    split
    · rename_i r' hok
      exact (unload_spec h hok).1
    · exact h
  | close => exact (close_emptied h.holds).sound

lemma Sound.run {acts : List (Act σ δ)} (h : Sound r) (hfresh : Fresh r acts) :
    Sound (acts.foldl Kernel.step r) := by
  induction acts generalizing r with
  | nil => exact h
  | cons a acts ih => exact ih (h.step hfresh.1) hfresh.2

lemma new_emptied : Emptied (new : Registry σ δ) := ⟨fun _ => rfl,fun _ => rfl,rfl,List.Perm.refl _⟩

/-- After any boots, unloads and closes the services are those of the loaded plugins, each under its
own plugin; every plugin has what it needs from itself or a plugin before it; and every disposer
recorded was run once or is still held. -/
theorem lifecycle_sound {acts : List (Act σ δ)} (hfresh : Fresh new acts) :
    Sound (acts.foldl step (new : Registry σ δ)) := new_emptied.sound.run hfresh

/-- Unloading takes out the plugin and those that need it, directly or through others, and no other;
it runs their disposers from the last recorded to the first. -/
theorem unload_exact {acts : List (Act σ δ)} (hfresh : Fresh new acts) {name : String}
    {r' : Registry σ δ} (hok : unload (acts.foldl step new) name = .ok r') :
    Sound r' ∧ ∃ gone, Unloaded (acts.foldl step new) r' name gone :=
    unload_spec (new_emptied.sound.run hfresh) hok

/-- A boot that is refused changes nothing, one that fails on a plugin leaves nothing, and one that
succeeds has loaded its plugins behind those there, in boot order. -/
theorem boot_whole {acts : List (Act σ δ)} (hfresh : Fresh new acts) {plugins : List (Plugin σ δ)}
    (hnew : ∀ p ∈ plugins, p.name ∉ (acts.foldl step (new : Registry σ δ)).order.map Loaded.name) :
    Booted (acts.foldl step new) plugins (boot (acts.foldl step new) plugins) :=
  boot_booted (new_emptied.sound.run hfresh) hnew

section samples

lemma topoSort_single {p : Plugin σ δ} {has : String → Bool} (hkeys : p.provides.Nodup)
    (hdeps : ∀ dep ∈ p.deps, has dep = true) : topoSort [p] has = .ok [p] := by
  have hbefore : ∀ a b, ¬ Before [p] a b := by
    rintro a b ⟨hne,q,hq,x,hx,rfl,rfl,-⟩
    rw [List.mem_singleton.mp hq,List.mem_singleton.mp hx] at hne
    exact hne rfl
  obtain ⟨-,out,hout,hperm,-⟩ | ⟨hcyclic,-⟩ :=
    @topoSort_cases _ _ [p] has (List.nodup_singleton _) (by simpa using hkeys)
    (fun x hx dep hdep => by
    rw [List.mem_singleton.mp hx] at hdep
    exact Or.inl (hdeps dep hdep))
  · rw [hout,List.perm_singleton.mp hperm]
  · refine absurd (fun n hc => ?_) hcyclic
    obtain ⟨c,hc,-⟩ := Relation.TransGen.head'_iff.mp hc
    exact hbefore n c hc

/-- A plugin with one service and a disposer of its own. -/
def store : Plugin ℕ ℕ :=
  ⟨"store",["cx.store"],[],.provide "cx.store" 7 (fun _ => .effect (some 1) (.done none))⟩

/-- A plugin that needs the service and returns a disposer. -/
def client : Plugin ℕ ℕ :=
  ⟨"client",[],["cx.store"],.resolve "cx.store" (fun _ => none) (fun _ => .done (some 2))⟩

/-- A plugin that fails. -/
def broken : Plugin ℕ ℕ := ⟨"broken",[],["cx.store"],.fail (.own "no disk")⟩

def storeLoaded : Registry ℕ ℕ :=
  ⟨Function.update (fun _ => none) "cx.store" (some 7),
    Function.update (fun _ => none) "cx.store" (some "store"),
    [⟨"store",[],none,[.provided "cx.store",.own 1]⟩],[1],[]⟩

def bothLoaded : Registry ℕ ℕ :=
  { storeLoaded with
    order := storeLoaded.order ++ [⟨"client",["cx.store"],some 2,[]⟩], recorded := [1,2] }

lemma boot_store : boot new [store] = (storeLoaded,none) := by
  unfold boot
  rw [topoSort_single (by decide) (fun _ h => (by cases h))]
  rfl

lemma boot_client : boot storeLoaded [client] = (bothLoaded,none) := by
  unfold boot
  rw [topoSort_single (by decide) (by decide)]
  rfl

lemma run_both : [Act.boot [store],.boot [client]].foldl step new = bothLoaded := by
  have hstore : step new (.boot [store]) = storeLoaded := congrArg Prod.fst boot_store
  rw [List.foldl_cons,List.foldl_cons,List.foldl_nil,hstore]
  exact congrArg Prod.fst boot_client

lemma fresh_both : Fresh new [Act.boot [store],.boot [client]] := by
  refine ⟨fun _ _ _ _ h => (by cases h),?_,trivial⟩
  intro plugins heq p hp
  cases heq
  rw [List.mem_singleton.mp hp,step,boot_store]
  decide

end samples

theorem lifecycle_sound_both :
    Fresh new [Act.boot [store],.boot [client]] ∧
    Sound ([Act.boot [store],.boot [client]].foldl step new) :=
  ⟨fresh_both,lifecycle_sound fresh_both⟩

theorem unload_exact_both :
    ∃ r', unload ([Act.boot [store],.boot [client]].foldl step new) "store" = .ok r'
    ∧ Sound r' ∧ ∃ gone, Unloaded ([Act.boot [store],
      .boot [client]].foldl step new) r' "store" gone := by
  have hok : ∃ r', unload ([Act.boot [store],.boot [client]].foldl step new) "store" = .ok r' := by
    rw [run_both]
    exact ⟨_,rfl⟩
  obtain ⟨r',hr'⟩ := hok
  exact ⟨r',hr',unload_exact fresh_both hr'⟩

/-- A boot over a loaded plugin whose own plugin fails. -/
theorem boot_whole_broken : ([Act.boot [store]].foldl step new).order.map Loaded.name = ["store"] ∧
    (boot ([Act.boot [store]].foldl step new) [broken]).2 = some (.failedToApply "broken"
      (.own "no disk")) ∧
    Booted ([Act.boot [store]].foldl step new) [broken]
    (boot ([Act.boot [store]].foldl step new) [broken]) := by
  have hrun : [Act.boot [store]].foldl step new = storeLoaded := congrArg Prod.fst boot_store
  have hfresh : Fresh new [Act.boot [store]] := ⟨fun _ _ _ _ h => (by cases h),trivial⟩
  have hnew : ∀ p ∈ [broken],
    p.name ∉ ([Act.boot [store]].foldl step new).order.map Loaded.name := by
    intro p hp
    rw [List.mem_singleton.mp hp,hrun]
    decide
  have hwhole := boot_whole hfresh hnew
  rw [hrun] at hwhole ⊢
  refine ⟨rfl,?_,hwhole⟩
  unfold boot
  rw [topoSort_single (by decide) (by decide)]
  rfl

end Manvi.Kernel
