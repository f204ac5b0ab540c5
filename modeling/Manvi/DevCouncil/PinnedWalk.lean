import Manvi.DevCouncil.PinnedWrite
import Manvi.Program.Exact

/-! The walk of a pinned write to the parent directory of its leaf: when it gets there, and what it
leaves behind when it does not. -/
namespace Manvi.DevCouncil
open Manvi.Encoding Manvi.Program

/-- A failure that is reported as having changed nothing, with the files as given. -/
def Unchanged (files : Files) (e : WriteErr) (t : Files) : Prop :=
  writeMayHaveChanged e = false ∧ t = files

/-- A walk through descriptors can enter what stands at a place. -/
def followed (files : Files) (place : Path) : Bool :=
  match files place with
  | some .dir => true
  | some (.link (.inside _ true)) => true
  | _ => false

/-- Every pinned directory of a path is entered. -/
def EntersPinned (env : Env) (files : Files) : ℕ → Path → List Path → List String → Prop
  | i,here,d :: ds,name :: rest => env.fails (.enterDir i) = false ∧
    followed files (here ++ [name]) = true ∧
      env.fails (.statDir i) = false ∧ EntersPinned env files (i+1) d ds rest
  | _,_,_,_ => True

/-- Every missing directory of a path is made and entered. -/
def MakesDirs (env : Env) : ℕ → List String → Prop
  | _,[] => True
  | i,_ :: rest => env.fails (.mkdir i) = false ∧ env.fails (.lstatDir i) = false ∧
    env.fails (.enterDir i) = false ∧
      env.fails (.statDir i) = false ∧ MakesDirs env (i+1) rest

/-- Every directory of a path is found to be the entry its parent names, so none is a link. -/
def Linked (env : Env) (files : Files) (op : ℕ → Op) : ℕ → Path → List Path → List String → Prop
  | i,here,d :: ds,name :: rest => env.fails (op i) = false ∧ files (here ++ [name]) = some .dir ∧
      Linked env files op (i+1) d ds rest
  | i,here,[],_ :: rest => env.fails (op i) = false ∧ Linked env files op (i+1) here [] rest
  | _,_,_,[] => True

/-- The files with the directories of a path made. -/
def made (files : Files) : Path → List String → Files
  | _,[] => files
  | here,name :: rest => made (Function.update files (here ++ [name]) (some .dir)) (here ++
    [name]) rest

/-- The places of the directories of a path. -/
def places : Path → List String → List Path
  | _,[] => []
  | here,name :: rest => (here ++ [name]) :: places (here ++ [name]) rest

/-- Nothing stands at a place or below it. -/
def Void (files : Files) (place : Path) : Prop := ∀ below, files (place ++ below) = none

section stages
variable {env : Env} {files g : Files} {here : Path} {name : String} {i : ℕ}

lemma attempt_exact (env : Env) (g : Files) (op : Op) :
    Exact g (attempt env op) (env.fails op = false) () g (Unchanged g) := by
  unfold attempt
  cases h : env.fails op with
  | false =>
    rw [if_neg (by simp)]
    exact Exact.pure.iff (by simp)
  | true =>
    rw [if_pos rfl]
    exact (Exact.exit ⟨rfl,rfl⟩).iff (by simp)

lemma lookup_exact (g : Files) (place : Path) {R : WriteErr → Files → Prop} :
    Exact g (lookup place) True (g place) g R := Exact.read _

lemma put_exact (g : Files) (place : Path) (node : Option Node) {R : WriteErr → Files → Prop} :
    Exact g (put place node) True () (Function.update g place node) R := Exact.modify _

/-- A directory, or a link to one that is followed, is opened. -/
lemma openEntry_exact {place expected : Path}
    (h : files place = some .dir ∧ expected = place ∨
      ∃ followed, files place = some (.link (.inside expected followed))) :
    Exact files (openEntry env i place) (env.fails (.enterDir i) = false ∧
      followed files place = true)
      expected files (Unchanged files) := by
  unfold openEntry
  refine Exact.bind (attempt_exact env files _) (fun _ => Exact.after (lookup_exact files place) ?_)
  unfold followed
  obtain ⟨hdir,he⟩ | ⟨b,hlink⟩ := h
  · rw [hdir,he]
    exact Exact.pure.iff (by simp)
  · rw [hlink]
    cases b with
    | true => exact Exact.pure.iff (by simp)
    | false => exact (Exact.exit ⟨rfl,rfl⟩).iff (by simp)

/-- A pinned directory is entered if a walk can enter it and nothing fails. -/
lemma enterPinned_exact {expected : Path}
    (h : files (here ++ [name]) = some .dir ∧ expected = here ++ [name] ∨
      ∃ followed, files (here ++ [name]) = some (.link (.inside expected followed))) :
    Exact files (enterPinned env i here name expected) ((env.fails (.enterDir i) = false ∧
      followed files (here ++ [name]) = true) ∧
      env.fails (.statDir i) = false) expected files (Unchanged files) := by
  unfold enterPinned
  refine Exact.bind (openEntry_exact h) (fun _ => Exact.before (attempt_exact env files _)
    (fun _ => ?_))
  rw [if_pos rfl]
  exact Exact.pure

/-- The files once the first missing directory was made, or not. -/
def afterMkdir (env : Env) (i : ℕ) (g : Files) (place : Path) : Files :=
  if env.fails (.mkdir i) then g else Function.update g place (some .dir)

/-- A directory where nothing stands is made and entered if nothing fails. -/
lemma enterMissing_exact (h : g (here ++ [name]) = none) :
    Exact g (enterMissing env i here name) (env.fails (.mkdir i) = false ∧
      env.fails (.lstatDir i) = false ∧
      env.fails (.enterDir i) = false ∧ env.fails (.statDir i) = false) (here ++ [name])
      (Function.update g (here ++ [name]) (some .dir))
      (Unchanged (afterMkdir env i g (here ++ [name]))) := by
  have hmkdir : Exact g (attempt env (.mkdir i)) (env.fails (.mkdir i) = false) () g
      (Unchanged (afterMkdir env i g (here ++ [name]))) := by
    refine (attempt_exact env g _).weaken (fun hf e t hr => ?_)
    rw [Bool.not_eq_false] at hf
    rw [afterMkdir,if_pos hf]
    exact hr
  unfold enterMissing
  refine Exact.bind hmkdir (fun hok => ?_)
  rw [afterMkdir,if_neg (by rw [hok]; simp)]
  refine Exact.after (lookup_exact g _) ?_
  rw [h]
  have hput : Exact g (Prog.when ((none : Option Node) = none)
    (put (here ++ [name]) (some .dir))) True ()
      (Function.update g (here ++ [name]) (some .dir))
      (Unchanged (Function.update g (here ++ [name]) (some .dir))) := by
    rw [Prog.when,if_pos rfl]
    exact put_exact g _ _
  refine Exact.after hput (Exact.bind (attempt_exact env _ _) (fun _ => ?_))
  refine Exact.after (lookup_exact _ _) ?_
  rw [Function.update_self]
  exact Exact.bind (attempt_exact env _ _) (fun _ => Exact.before (attempt_exact env _ _)
    (fun _ => Exact.pure))

/-- A link that leads nowhere is refused. -/
lemma enterMissing_dangling {target : LinkTarget} (h : g (here ++ [name]) = some (.link target))
    {a : Path} {t : Files} :
    Exact g (enterMissing env i here name) False a t (Unchanged g) := by
  unfold enterMissing
  refine (Exact.bind (D := False) (attempt_exact env g _)
    (fun _ => Exact.after (lookup_exact g _) ?_)).iff (by simp)
  rw [h]
  have hput : Exact g (Prog.when (some (Node.link target) = none)
    (put (here ++ [name]) (some .dir))) True () g
      (Unchanged g) := by
    rw [Prog.when,if_neg (by simp)]
    exact Exact.pure
  refine Exact.after hput ?_
  refine (Exact.bind (D := False) (attempt_exact env g _)
    (fun _ => Exact.after (lookup_exact g _) ?_)).iff (by simp)
  rw [h]
  exact Exact.exit ⟨rfl,rfl⟩

/-- How far missing directories were made when one of them could not be. -/
def LeftBy (env : Env) (i : ℕ) (g : Files) (here : Path) (names : List String) (e : WriteErr)
    (t : Files) : Prop :=
  writeMayHaveChanged e = false ∧
    ∃ k ≤ names.length, t = made g here (names.take k) ∧ (k = 0 ↔ env.fails (.mkdir i) = true)

lemma Void.made (h : Void g here) (name : String) :
    Void (Function.update g here (some .dir)) (here ++ [name]) := by
  intro below
  rw [Function.update_of_ne]
  · rw [List.append_assoc]
    exact h _
  · intro he
    have := congrArg List.length he
    simp only [List.length_append,List.length_singleton] at this
    omega

/-- Missing directories are made and entered one by one. -/
lemma enterMissings_exact (p : PinnedTarget) {names : List String}
    (hno : ∀ j, i ≤ j → p.dirs[j]? = none)
    (hvoid : ∀ n ns, names = n :: ns → Void g (here ++ [n])) :
    Exact g (p.enterDirs env i here names) (MakesDirs env i names) (places here names)
    (made g here names)
      (LeftBy env i g here names) := by
  induction names generalizing i here g with
  | nil => exact Exact.pure
  | cons n ns ih =>
    have hvn := hvoid n ns rfl
    have hnone : g (here ++ [n]) = none := by
      have := hvn []
      rw [List.append_nil] at this
      exact this
    have henter : p.enterDir env i here n = enterMissing env i here n := by
      rw [PinnedTarget.enterDir,hno i (le_refl i)]
    have hfirst : Exact g (enterMissing env i here n) (env.fails (.mkdir i) = false ∧
      env.fails (.lstatDir i) = false ∧
        env.fails (.enterDir i) = false ∧ env.fails (.statDir i) = false) (here ++ [n])
        (Function.update g (here ++ [n]) (some .dir)) (LeftBy env i g here (n :: ns)) := by
      refine (enterMissing_exact hnone).weaken (fun _ e t hr => ?_)
      obtain ⟨hflag,ht⟩ := hr
      unfold afterMkdir at ht
      cases hm : env.fails (.mkdir i) with
      | true =>
        rw [hm,if_pos rfl] at ht
        exact ⟨hflag,0,Nat.zero_le _,ht,by rw [hm]; simp⟩
      | false =>
        rw [hm,if_neg (by simp)] at ht
        exact ⟨hflag,1,by simp,ht,by rw [hm]; simp⟩
    have hrest := ih (g := Function.update g (here ++ [n]) (some .dir)) (i := i+1)
      (fun j hj => hno j (by omega)) (fun m ms _ => hvn.made m)
    unfold PinnedTarget.enterDirs
    rw [henter]
    refine (Exact.bind hfirst (fun hok =>
      Exact.before (f := fun chain => pure ((here ++ [n]) :: chain))
      (hrest.weaken (fun _ e t hr => ?_)) (fun _ => Exact.pure))).iff ?_
    · obtain ⟨hflag,k,hk,ht,_⟩ := hr
      exact ⟨hflag,k+1,by simpa using hk,ht,by rw [hok.1]; simp⟩
    · rw [MakesDirs,and_assoc,and_assoc,and_assoc]

/-- What pinning found of the first directory of a path. -/
lemma pinDirs_cons {n : String} {ns : List String} {ds : List Path}
    (h : pinDirs files here (n :: ns) = some ds) :
    (ds = [] ∧ (files (here ++ [n]) = none ∨ files (here ++ [n]) = some (.link .missing))) ∨
    ∃ d ds', ds = d :: ds' ∧ pinDirs files d ns = some ds' ∧
    (files (here ++ [n]) = some .dir ∧ d = here ++ [n] ∨
      ∃ followed, files (here ++ [n]) = some (.link (.inside d followed))) := by
  unfold pinDirs at h
  cases hf : files (here ++ [n]) with
  | none =>
    rw [hf] at h
    exact .inl ⟨(Option.some.inj h).symm,.inl rfl⟩
  | some node =>
    rw [hf] at h
    cases node with
    | dir =>
      obtain ⟨ds',hds,rfl⟩ := Option.map_eq_some_iff.mp h
      exact .inr ⟨_,ds',rfl,hds,.inl ⟨rfl,rfl⟩⟩
    | file bytes links => cases h
    | other => cases h
    | link target =>
      cases target with
      | inside place followed =>
        dsimp only at h
        split_ifs at h
        obtain ⟨ds',hds,rfl⟩ := Option.map_eq_some_iff.mp h
        exact .inr ⟨place,ds',rfl,hds,.inr ⟨followed,rfl⟩⟩
      | missing => exact .inl ⟨(Option.some.inj h).symm,.inr rfl⟩
      | refused => cases h

/-- Behind the pinned directories the path ends, or nothing is found. -/
lemma pinDirs_rest {names : List String} {ds : List Path} (h : pinDirs files here names = some ds) :
    ds.length ≤ names.length ∧ (names.drop ds.length = [] ∨ ∃ n ns, names.drop ds.length = n :: ns ∧
      (files (ds.getLastD here ++ [n]) = none ∨
        files (ds.getLastD here ++ [n]) = some (.link .missing))) := by
  induction names generalizing here ds with
  | nil =>
    cases h
    exact ⟨le_refl 0,.inl rfl⟩
  | cons n ns ih =>
    obtain ⟨rfl,hnone⟩ | ⟨d,ds',rfl,hds,_⟩ := pinDirs_cons h
    · exact ⟨Nat.zero_le _,.inr ⟨n,ns,rfl,hnone⟩⟩
    · obtain ⟨hlen,hrest⟩ := ih hds
      rw [List.length_cons,List.drop_succ_cons,List.getLastD_cons]
      exact ⟨Nat.succ_le_succ hlen,hrest⟩

/-- The pinned directories are entered, and then the walk goes on behind them. -/
lemma enterDirs_exact (p : PinnedTarget) {names : List String} {ds : List Path}
    (hpin : pinDirs files here names = some ds) (hdirs : p.dirs.drop i = ds) {D : Prop}
    {c : List Path} {t : Files}
    {R : WriteErr → Files → Prop}
    (hrest : Exact files (p.enterDirs env (i+ds.length) (ds.getLastD here)
      (names.drop ds.length)) D c t R) :
    Exact files (p.enterDirs env i here names) (EntersPinned env files i here ds names ∧
      D) (ds ++ c) t
      (fun e t => (¬ EntersPinned env files i here ds names ∧ Unchanged files e t) ∨
        (EntersPinned env files i here ds names ∧ R e t)) := by
  induction names generalizing i here ds with
  | nil =>
    cases hpin
    have htrue : EntersPinned env files i here [] [] := trivial
    refine (hrest.weaken (fun _ e t hr => .inr ⟨htrue,hr⟩)).iff ?_
    exact ⟨And.right,fun h => ⟨htrue,h⟩⟩
  | cons n ns ih =>
    obtain ⟨rfl,_⟩ | ⟨d,ds',rfl,hds,hfound⟩ := pinDirs_cons hpin
    · have htrue : EntersPinned env files i here [] (n :: ns) := trivial
      refine (hrest.weaken (fun _ e t hr => .inr ⟨htrue,hr⟩)).iff ?_
      exact ⟨And.right,fun h => ⟨htrue,h⟩⟩
    · have hi : p.dirs[i]? = some d := by
        have := congrArg List.head? hdirs
        rw [List.head?_drop] at this
        exact this
      have hnext : p.dirs.drop (i+1) = ds' := by
        rw [← List.drop_drop,hdirs]
        rfl
      have hlast : (d :: ds').getLastD here = ds'.getLastD d := List.getLastD_cons
      rw [List.length_cons,List.drop_succ_cons,hlast,
        show i+(ds'.length+1) = i+1+ds'.length by omega] at hrest
      have hmore := ih hds hnext hrest
      have henter : p.enterDir env i here n = enterPinned env i here n d := by
        rw [PinnedTarget.enterDir,hi]
      unfold PinnedTarget.enterDirs
      rw [henter]
      have hfirst := (enterPinned_exact (i := i) hfound).weaken
        (Q := fun e t => (¬ EntersPinned env files i here (d :: ds') (n :: ns) ∧
          Unchanged files e t) ∨
          (EntersPinned env files i here (d :: ds') (n :: ns) ∧ R e t))
        (fun hno e t hr => .inl ⟨fun hall => hno ⟨⟨hall.1,hall.2.1⟩,hall.2.2.1⟩,hr⟩)
      refine (Exact.bind hfirst (fun hok => Exact.before (f := fun chain => pure (d :: chain))
        (hmore.weaken (fun _ e t hr => ?_)) (fun _ => Exact.pure))).iff ?_
      · have hall : EntersPinned env files i here (d :: ds') (n :: ns) ↔
          EntersPinned env files (i+1) d ds' ns :=
          ⟨fun h => h.2.2.2,fun h => ⟨hok.1.1,hok.1.2,hok.2,h⟩⟩
        rw [hall]
        exact hr
      · constructor
        · rintro ⟨⟨h1,h2,h3,h4⟩,hd⟩
          exact ⟨⟨⟨h1,h2⟩,h3⟩,h4,hd⟩
        · rintro ⟨⟨⟨h1,h2⟩,h3⟩,h4,hd⟩
          exact ⟨⟨h1,h2,h3,h4⟩,hd⟩

end stages

end Manvi.DevCouncil
