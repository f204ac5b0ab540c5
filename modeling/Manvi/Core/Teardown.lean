import Manvi.Core.BootOrder

/-! What a registry holds is what its plugins recorded, and taking a plugin out takes exactly that
out. -/
namespace Manvi.Kernel

variable {σ δ : Type} {r : Registry σ δ}

def Effect.key? : Effect δ → Option String
  | .provided key => some key
  | .own _ => none

def Effect.own? : Effect δ → Option δ
  | .provided _ => none
  | .own d => some d

/-- What taking a plugin out undoes, in the order it was recorded. -/
def Loaded.undoes (l : Loaded δ) : List (Effect δ) := l.effects ++ l.dispose.toList.map .own

/-- The disposers of a plugin, in the order they were recorded. -/
def Loaded.disposers (l : Loaded δ) : List δ := l.undoes.filterMap Effect.own?

/-- All that some plugins recorded, with their names. -/
def held (order : List (Loaded δ)) : List (String × Effect δ) :=
  order.flatMap (fun l => l.undoes.map (fun e => (l.name,e)))

/-- The services are those recorded, each once and under its plugin's name, and a disposer was run
or is still held. -/
structure Holds (r : Registry σ δ) (held : List (String × Effect δ)) : Prop where
  keys : (held.filterMap (fun x => x.2.key?)).Nodup
  owner : ∀ key n, r.owners key = some n ↔ (n,Effect.provided key) ∈ held
  service : ∀ key, (r.services key).isSome = (r.owners key).isSome
  account : r.recorded.Perm (r.undone ++ held.filterMap (fun x => x.2.own?))

namespace Holds
variable {rest rest' : List (String × Effect δ)} {n : String}

lemma perm (h : Holds r rest) (hp : rest.Perm rest') : Holds r rest' := by
  refine ⟨(hp.filterMap _).nodup_iff.mp h.keys,fun key n => ?_,h.service,
    h.account.trans ((hp.filterMap _).append_left _)⟩
  rw [h.owner key n,hp.mem_iff]

lemma mem_keys {key : String} (hin : (n,Effect.provided key) ∈ rest) :
    key ∈ rest.filterMap (fun x => x.2.key?) :=
  List.mem_filterMap.mpr ⟨_,hin,rfl⟩

lemma undo {e : Effect δ} (h : Holds r ((n,e) :: rest)) : Holds (undo r e) rest := by
  cases e with
  | provided key =>
    have hkeys := h.keys
    rw [List.filterMap_cons] at hkeys
    obtain ⟨hnew,hnodup⟩ := List.nodup_cons.mp hkeys
    refine ⟨hnodup,fun k m => ?_,fun k => ?_,h.account⟩
    · dsimp only [Kernel.undo]
      by_cases hk : k = key
      · subst hk
        rw [Function.update_self]
        exact ⟨fun hm => (by cases hm),fun hin => absurd (mem_keys hin) hnew⟩
      · rw [Function.update_of_ne hk,h.owner k m,List.mem_cons]
        refine ⟨fun hin => hin.resolve_left (fun heq => hk ?_),Or.inr⟩
        cases heq
        rfl
    · dsimp only [Kernel.undo]
      by_cases hk : k = key
      · rw [hk,Function.update_self,Function.update_self]
        rfl
      · rw [Function.update_of_ne hk,Function.update_of_ne hk,h.service k]
  | own d =>
    refine ⟨h.keys,fun k m => ?_,h.service,?_⟩
    · change r.owners k = some m ↔ _
      rw [h.owner k m,List.mem_cons]
      exact ⟨fun hin => hin.resolve_left (fun heq => (by cases heq)),Or.inr⟩
    · change r.recorded.Perm (r.undone ++ [d] ++ _)
      rw [List.append_assoc]
      exact h.account

lemma undoAll {es : List (Effect δ)} (h : Holds r (es.map (fun e => (n,e)) ++ rest)) :
    Holds (es.foldl Kernel.undo r) rest := by
  induction es generalizing r with
  | nil => exact h
  | cons e es ih => exact ih h.undo

lemma unwind {es : List (Effect δ)} (h : Holds r (es.map (fun e => (n,e)) ++ rest)) :
    Holds (unwind r es) rest := by
  apply undoAll
  rw [List.map_reverse]
  exact h.perm ((List.reverse_perm _).symm.append_right rest)

end Holds

lemma tear_eq (r : Registry σ δ) (l : Loaded δ) : tear r l = unwind r l.undoes := by
  unfold tear unwind Loaded.undoes
  cases l.dispose with
  | none => simp
  | some d => simp

lemma Holds.tear {rest : List (String × Effect δ)} {l : Loaded δ}
    (h : Holds r (l.undoes.map (fun e => (l.name,e)) ++ rest)) : Holds (tear r l) rest := by
  rw [tear_eq]
  exact h.unwind

lemma Holds.tearAll {rest : List (String × Effect δ)} {ls : List (Loaded δ)}
    (h : Holds r (held ls ++ rest)) : Holds (ls.foldl Kernel.tear r) rest := by
  induction ls generalizing r with
  | nil => exact h
  | cons l ls ih =>
    apply ih
    apply Holds.tear
    rw [held,List.flatMap_cons,List.append_assoc] at h
    exact h

section frames

lemma foldl_undo_order (es : List (Effect δ)) (r : Registry σ δ) :
    (es.foldl undo r).order = r.order := by
  induction es generalizing r with
  | nil => rfl
  | cons e es ih =>
    rw [List.foldl_cons,ih]
    cases e with
    | provided key => rfl
    | own d => rfl

lemma foldl_undo_undone (es : List (Effect δ)) (r : Registry σ δ) :
    (es.foldl undo r).undone = r.undone ++ es.filterMap Effect.own? := by
  induction es generalizing r with
  | nil => exact (List.append_nil _).symm
  | cons e es ih =>
    rw [List.foldl_cons,ih]
    cases e with
    | provided key => rfl
    | own d => simp [undo,Effect.own?]

/-- The disposers of the plugins taken out are run from the last recorded to the first. -/
lemma tearAll_undone (ls : List (Loaded δ)) (r : Registry σ δ) :
    (ls.reverse.foldl tear r).undone = r.undone ++ (ls.flatMap Loaded.disposers).reverse := by
  induction ls using List.reverseRecOn generalizing r with
  | nil => exact (List.append_nil _).symm
  | append_singleton ls l ih =>
    rw [List.reverse_append,List.reverse_singleton,List.singleton_append,List.foldl_cons,ih,tear_eq,
      Kernel.unwind,foldl_undo_undone,
      List.flatMap_append,List.flatMap_singleton,List.reverse_append,List.append_assoc,
      List.filterMap_reverse,Loaded.disposers]

end frames

lemma held_perm {order order' : List (Loaded δ)} (h : order.Perm order') :
    (held order).Perm (held order') := h.flatMap_right _

/-- Nothing is left: no service, no plugin, and every disposer recorded was run once. -/
structure Emptied (r : Registry σ δ) : Prop where
  services : ∀ key, r.services key = none
  owners : ∀ key, r.owners key = none
  order : r.order = []
  account : r.recorded.Perm r.undone

lemma emptied_of_holds (h : Holds r []) (horder : r.order = []) : Emptied r := by
  have howners : ∀ key, r.owners key = none := by
    intro key
    cases hkey : r.owners key with
    | none => rfl
    | some n => cases (h.owner key n).mp hkey
  refine ⟨fun key => ?_,howners,horder,?_⟩
  · have hsome := h.service key
    rw [howners key,Option.isSome_none,Option.isSome_eq_false_iff,
      Option.isNone_iff_eq_none] at hsome
    exact hsome
  · have haccount := h.account
    rwa [List.filterMap_nil,List.append_nil] at haccount

lemma close_emptied (h : Holds r (held r.order)) : Emptied (close r) := by
  apply emptied_of_holds
  · have hall : Holds (r.order.reverse.foldl tear r) [] := by
      apply Holds.tearAll
      rw [List.append_nil]
      exact h.perm (held_perm (List.reverse_perm _).symm)
    exact ⟨hall.keys,hall.owner,hall.service,hall.account⟩
  · rfl

section apply

/-- What a call of a plugin on its context leaves: the record of it, and what was there before. -/
structure Kept (base : List (String × Effect δ)) (c c' : Ctx σ δ) : Prop where
  holds : Holds c'.reg (c'.effects.map (fun e => (c.owner,e)) ++ base)
  owner : c'.owner = c.owner
  order : c'.reg.order = c.reg.order
  has : ∀ key, c.reg.has key = true → c'.reg.has key = true

variable {base : List (String × Effect δ)} {c c' : Ctx σ δ}

lemma Kept.trans {c'' : Ctx σ δ} (h : Kept base c c') (h' : Kept base c' c'') : Kept base c c'' :=
  ⟨h.owner ▸ h'.holds,h'.owner.trans h.owner,h'.order.trans h.order,
    fun key hkey => h'.has key (h.has key hkey)⟩

lemma provide_kept {key : String} {svc : σ}
    (h : Holds c.reg (c.effects.map (fun e => (c.owner,e)) ++ base))
    (hok : c.provide key svc = .ok c') : Kept base c c' := by
  unfold Ctx.provide at hok
  split at hok
  · cases hok
  · split at hok
    · cases hok
    · rename_i hfree
      cases hok
      refine ⟨?_,rfl,rfl,fun k hk => ?_⟩
      · dsimp only
        rw [List.map_append,List.map_singleton,List.append_assoc,List.singleton_append]
        apply Holds.perm _ List.perm_middle.symm
        refine ⟨?_,fun k n => ?_,fun k => ?_,h.account⟩
        · rw [List.filterMap_cons]
          apply List.nodup_cons.mpr ⟨_,h.keys⟩
          intro hin
          obtain ⟨⟨n,e⟩,hmem,hkey⟩ := List.mem_filterMap.mp hin
          cases e with
          | own d => cases hkey
          | provided k =>
            cases hkey
            rw [(h.owner key n).mpr hmem] at hfree
            cases hfree
        · dsimp only
          rw [List.mem_cons]
          by_cases hk : k = key
          · subst hk
            rw [Function.update_self]
            constructor
            · intro heq
              cases heq
              exact Or.inl rfl
            · rintro (heq | hin)
              · cases heq
                rfl
              · rw [(h.owner k n).mpr hin] at hfree
                cases hfree
          · rw [Function.update_of_ne hk,h.owner k n]
            refine ⟨Or.inr,fun hin => hin.resolve_left (fun heq => hk ?_)⟩
            cases heq
            rfl
        · dsimp only
          by_cases hk : k = key
          · rw [hk,Function.update_self,Function.update_self]
            rfl
          · rw [Function.update_of_ne hk,Function.update_of_ne hk,h.service k]
      · unfold Registry.has at hk ⊢
        dsimp only
        by_cases heq : k = key
        · rw [heq,Function.update_self]
          rfl
        · rwa [Function.update_of_ne heq]

lemma effect_kept {d : Option δ} (h : Holds c.reg (c.effects.map (fun e => (c.owner,e)) ++ base)) :
    Kept base c (c.effect d) := by
  cases d with
  | none => exact ⟨h,rfl,rfl,fun _ hk => hk⟩
  | some d =>
    refine ⟨?_,rfl,rfl,fun _ hk => hk⟩
    dsimp only [Ctx.effect]
    rw [List.map_append,List.map_singleton,List.append_assoc,List.singleton_append]
    apply Holds.perm _ List.perm_middle.symm
    refine ⟨h.keys,fun k n => ?_,h.service,?_⟩
    · rw [List.mem_cons]
      exact (h.owner k n).trans ⟨Or.inr,fun hin => hin.resolve_left (fun heq => (by cases heq))⟩
    · change (c.reg.recorded ++ [d]).Perm (c.reg.undone ++ d :: _)
      exact (List.perm_append_comm.trans (h.account.cons d)).trans List.perm_middle.symm

/-- Whatever a plugin does with its context, the record stays true. -/
lemma run_kept (s : Script σ δ) (h : Holds c.reg (c.effects.map (fun e => (c.owner,e)) ++ base)) :
    Kept base c (s.run c).2 := by
  induction s generalizing c with
  | done dispose => exact ⟨h,rfl,rfl,fun _ hk => hk⟩
  | fail err => exact ⟨h,rfl,rfl,fun _ hk => hk⟩
  | provide key svc rest ih =>
    unfold Script.run
    cases hok : c.provide key svc with
    | error err => exact ih (some err) h
    | ok c' =>
      have hkept := provide_kept h hok
      exact hkept.trans (ih none (hkept.owner ▸ hkept.holds))
  | effect d rest ih =>
    have hkept := @effect_kept _ _ base c d h
    exact hkept.trans (ih (hkept.owner ▸ hkept.holds))
  | resolve key otherType rest ih => exact ih _ h

/-- A plugin that is applied has its record at the end and its declared services there; one that
fails leaves no trace in either. -/
lemma apply_spec (h : Holds r (held r.order)) (p : Plugin σ δ) :
    (∃ l r', apply r p = (r',none) ∧ l.name = p.name ∧ l.deps = p.deps ∧ r'.order = r.order ++ [l] ∧
      Holds r' (held r'.order)
      ∧ (∀ key ∈ p.provides, r'.has key = true) ∧ ∀ key, r.has key = true → r'.has key = true)
    ∨ ∃ r' err, apply r p = (r',some err) ∧ r'.order = r.order ∧ Holds r' (held r'.order) := by
  have hkept := @run_kept _ _ (held r.order) ⟨r,p.name,p.provides,p.deps,[]⟩ p.script h
  unfold apply
  generalize p.script.run ⟨r,p.name,p.provides,p.deps,[]⟩ = res at hkept ⊢
  obtain ⟨result,cx⟩ := res
  obtain ⟨hholds,-,horder,hhas⟩ := hkept
  dsimp only at hholds horder hhas
  have hrolled : (unwind cx.reg cx.effects).order = r.order := (foldl_undo_order _ _).trans horder
  cases result with
  | error err =>
    refine Or.inr ⟨_,_,rfl,hrolled,?_⟩
    rw [hrolled]
    exact hholds.unwind
  | ok dispose =>
    dsimp only
    split
    · refine Or.inr ⟨_,_,rfl,hrolled,?_⟩
      rw [hrolled]
      exact hholds.unwind
    · rename_i hnone
      refine Or.inl ⟨_,_,rfl,rfl,rfl,congrArg (· ++ _) horder,?_,?_,hhas⟩
      · have hcx : held (cx.reg.order ++ [⟨p.name,p.deps,dispose,cx.effects⟩])
            = held r.order ++ (cx.effects.map (fun e => (p.name,e)) ++
              dispose.toList.map (fun d => (p.name,Effect.own d))) := by
          rw [held,List.flatMap_append,List.flatMap_singleton,horder,Loaded.undoes,List.map_append,
            List.map_map]
          rfl
        dsimp only
        rw [hcx]
        apply Holds.perm _ List.perm_append_comm
        cases dispose with
        | none =>
          rw [Option.toList_none,List.map_nil,List.append_nil,List.append_nil]
          exact ⟨hholds.keys,hholds.owner,hholds.service,hholds.account⟩
        | some d =>
          rw [Option.toList_some,List.map_singleton,List.append_assoc,List.singleton_append]
          apply Holds.perm _ List.perm_middle.symm
          refine ⟨hholds.keys,fun k n => ?_,hholds.service,?_⟩
          · rw [List.mem_cons]
            exact (hholds.owner k n).trans ⟨Or.inr,
              fun hin => hin.resolve_left (fun heq => (by cases heq))⟩
          · change (cx.reg.recorded ++ [d]).Perm (cx.reg.undone ++ d :: _)
            exact (List.perm_append_comm.trans (hholds.account.cons d)).trans List.perm_middle.symm
      · intro key hkey
        have hthere : cx.reg.has key = true := by simpa using List.find?_eq_none.mp hnone key hkey
        exact hthere

end apply
end Manvi.Kernel
