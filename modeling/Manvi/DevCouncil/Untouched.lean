import Manvi.DevCouncil.PinnedWalk

/-! When a pinned write that reports that nothing changed left the files as they were. -/
namespace Manvi.DevCouncil
open Manvi.Encoding Manvi.Program

namespace PinnedTarget

/-- The directories of the path that do not exist yet. -/
def missing (p : PinnedTarget) : List String := p.parts.drop p.dirs.length

def newDirs (p : PinnedTarget) : List Path := places (lastPlace p.dirs) p.missing

def chain (p : PinnedTarget) : List Path := p.dirs ++ p.newDirs

/-- The place of the leaf. -/
def place (p : PinnedTarget) : Path := lastPlace p.chain ++ [p.leaf]

end PinnedTarget

/-- The leaf has the data, the directories on the way were made, and nothing else changed. -/
structure Stored (p : PinnedTarget) (files : Files) (data : Bytes) (t : Files) : Prop where
  leaf : t p.place = some (.file data 1)
  dirs : ∀ q ∈ p.newDirs, files q = none ∧ t q = some .dir
  rest : ∀ q, q ≠ p.place → q ∉ p.newDirs → t q = files q

/-- A write that returns has stored the data, and one that is reported as having changed nothing
changed nothing. -/
def Told (p : PinnedTarget) (files : Files) (data : Bytes) : Except WriteErr Unit × Files → Prop
  | (.ok _,t) => Stored p files data t
  | (.error e,t) => writeMayHaveChanged e = false → t = files

/-- Every directory that exists is entered. -/
def Enters (env : Env) (p : PinnedTarget) (files : Files) : Prop :=
  env.fails .openRoot = false ∧ env.fails .statRoot = false ∧
  EntersPinned env files 0 [] p.dirs p.parts

/-- What was opened is found to be the leaf of a path without links. -/
def Checks (env : Env) (p : PinnedTarget) (files : Files) : Prop :=
  env.fails .statLeaf = false ∧ env.fails .lstatOpened = false ∧ env.fails .lstatRoot = false ∧
    Linked env files .lstatLink 0 [] p.dirs p.parts ∧ env.fails .linkCount = false

/-- The data is written to the new file. -/
def Stores (env : Env) : Prop := env.fails .write = false ∧ env.fails .sync = false ∧
    env.fails .close = false

/-- The place of the temporary file. -/
def tempSlot (env : Env) (files : Files) (parent : Path) (leaf : String) : ℕ → ℕ → Option Path
  | 0,_ => none
  | tries+1,n =>
    if env.fails (.readNonce n) ∨ env.fails (.createTemp n) then none
    else if files (parent ++ [tempName env leaf n]) = none then
      some (parent ++ [tempName env leaf n])
    else tempSlot env files parent leaf tries (n+1)

/-- The existing file may be replaced, and a temporary file is created. -/
def Readies (env : Env) (p : PinnedTarget) (files : Files) : Prop :=
  env.fails .lstatLeaf = false ∧ env.fails .openLeaf = false ∧ Checks env p files ∧
    (∃ bytes links, files p.place = some (.file bytes links) ∧ links ≤ 1) ∧
    env.fails .closeOriginal = false ∧
    (tempSlot env files (lastPlace p.chain) p.leaf 16 0).isSome

/-- The temporary file is filled and moved over the leaf. -/
def Renames (env : Env) (p : PinnedTarget) (files : Files) : Prop :=
  env.fails .chmod = false ∧ (env.fails .writeTemp = false ∧ env.fails .syncTemp = false ∧
    env.fails .closeTemp = false) ∧
    env.fails .lstatLeafAgain = false ∧ env.fails .lstatRootAgain = false ∧
    Linked env files .lstatLinkAgain 0 [] p.dirs p.parts ∧ env.fails .rename = false

/-- Nothing that this write puts into the files has to be taken away again and is not: a temporary
file, an unfinished file, or a directory. -/
def Tidy (env : Env) (p : PinnedTarget) (files : Files) : Prop :=
  if p.targetExisted then Enters env p files → Readies env p files → Renames env p files ∨
    env.fails .removeTemp = false
  else match p.missing with
    | [] => Enters env p files → env.fails .openLeaf = false →
      Checks env p files ∧ (Stores env ∨ env.fails .lstatUnfinished = false)
    | name :: _ => files (lastPlace p.dirs ++ [name]) = none → Enters env p files →
      env.fails (.mkdir p.dirs.length) = false → MakesDirs env p.dirs.length p.missing ∧
      env.fails .openLeaf = false ∧
        Checks env p files ∧ (Stores env ∨ env.fails .lstatUnfinished = false ∧
          env.fails .removeUnfinished = true)

section told
variable {α : Type} {env : Env} {p : PinnedTarget} {files g g' : Files} {data : Bytes} {x : Act α}
    {f : α → Act Unit}
  {C K : Prop} {a : α} {R : WriteErr → Files → Prop}

/-- A program that begins with an exact part tells the truth if the part returns and the rest does,
or if it is left with the files as they were. -/
lemma told_bind (hx : Exact g x C a g' R) (hR : ¬ C → ∀ e t, R e t → writeMayHaveChanged e = false ∧
    (t = files ↔ K)) :
    Told p files data ((x >>= f) g) ↔ C ∧ Told p files data (f a g') ∨ ¬ C ∧ K := by
  change Told p files data (Prog.bind x f g) ↔ _
  by_cases hc : C
  · rw [Prog.bind,hx.1 hc]
    simp [hc]
  · obtain ⟨e,t,hrun,hr⟩ := hx.2 hc
    obtain ⟨hflag,hk⟩ := hR hc e t hr
    rw [Prog.bind,hrun]
    simp [hc,Told,hflag,hk]

/-- A part that changes nothing when it is left needs no condition. -/
lemma told_kept (hx : Exact g x C a g' (Unchanged files)) :
    Told p files data ((x >>= f) g) ↔ (C → Told p files data (f a g')) := by
  rw [told_bind (K := True) hx (fun _ e t hr => ⟨hr.1,iff_true_intro hr.2⟩)]
  tauto

/-- A part that is left with other files has to return. -/
lemma told_lost {t : Files} (hx : Exact g x C a g' (Unchanged t)) (ht : t ≠ files) :
    Told p files data ((x >>= f) g) ↔ C ∧ Told p files data (f a g') := by
  rw [told_bind (K := False) hx (fun _ e t' hr => ⟨hr.1,iff_false_intro (by rw [hr.2]; exact ht)⟩)]
  tauto

end told

section links
variable {env : Env} {files g : Files} {op : ℕ → Op}

/-- Every directory of a chain is the entry that its parent names. -/
def Chained (env : Env) (g : Files) (op : ℕ → Op) : ℕ → Path → List String → List Path → Prop
  | i,here,name :: rest,place :: chain => env.fails (op i) = false ∧
      (g (here ++ [name]) = some .dir ∧ here ++ [name] = place) ∧
      Chained env g op (i+1) place rest chain
  | _,_,_,_ => True

lemma checkLinks_exact (env : Env) (g : Files) (op : ℕ → Op) (i : ℕ) (here : Path)
    (names : List String) (chain : List Path) :
    Exact g (checkLinks env op i here names chain) (Chained env g op i here names chain) () g
    (Unchanged g) := by
  induction names generalizing i here chain with
  | nil => exact Exact.pure
  | cons n ns ih =>
    cases chain with
    | nil => exact Exact.pure
    | cons d ds =>
      unfold checkLinks Chained
      refine Exact.bind (attempt_exact env g _) (fun _ => Exact.after (lookup_exact g _) ?_)
      by_cases hd : g (here ++ [n]) = some .dir ∧ here ++ [n] = d
      · rw [if_pos hd]
        exact (ih (i+1) d ds).iff ⟨And.right,fun h => ⟨hd,h⟩⟩
      · rw [if_neg hd]
        exact (Exact.exit ⟨rfl,rfl⟩).iff ⟨fun h => hd h.1,False.elim⟩

/-- Directories that were just made are entries of their parents. -/
lemma chained_places {names : List String} {here : Path} {i : ℕ}
    (hnew : ∀ q ∈ places here names, g q = some .dir)
    (there : Path) : Chained env g op i here names (places here names) ↔
    Linked env files op i there [] names := by
  induction names generalizing here i with
  | nil => exact Iff.rfl
  | cons n ns ih =>
    unfold places at hnew ⊢
    unfold Chained Linked
    rw [ih (fun q hq => hnew q (List.mem_cons_of_mem _ hq)),hnew _ List.mem_cons_self]
    simp

/-- The check of a chain passes where the path has no link. -/
lemma chained_iff {names : List String} {here : Path} {ds : List Path} {i : ℕ}
    (hpin : pinDirs files here names = some ds)
    (hold : ∀ q, files q ≠ none → g q = files q)
    (hnew : ∀ q ∈ places (ds.getLastD here) (names.drop ds.length), g q = some .dir) :
    Chained env g op i here names (ds ++ places (ds.getLastD here) (names.drop ds.length)) ↔
      Linked env files op i here ds names := by
  induction names generalizing here ds i with
  | nil =>
    cases hpin
    exact Iff.rfl
  | cons n ns ih =>
    obtain ⟨rfl,_⟩ | ⟨d,ds',rfl,hds,hfound⟩ := pinDirs_cons hpin
    · exact chained_places hnew here
    · rw [List.length_cons,List.drop_succ_cons,List.getLastD_cons] at hnew ⊢
      have hmore := ih (i := i+1) hds hnew
      rw [List.cons_append]
      unfold Chained Linked
      rw [hmore]
      obtain ⟨hdir,rfl⟩ | ⟨b,hlink⟩ := hfound
      · rw [hold _ (by rw [hdir]; simp),hdir]
        simp
      · rw [hold _ (by rw [hlink]; simp),hlink]
        simp

lemma stillLinked_exact {root : Op} {parts : List String} {ds : List Path}
    (hpin : pinDirs files [] parts = some ds)
    (hold : ∀ q, files q ≠ none → g q = files q)
    (hnew : ∀ q ∈ places (lastPlace ds) (parts.drop ds.length), g q = some .dir) :
    Exact g (stillLinked env root op parts (ds ++ places (lastPlace ds) (parts.drop ds.length)))
      (env.fails root = false ∧ Linked env files op 0 [] ds parts) () g (Unchanged g) :=
  Exact.bind (attempt_exact env g root) (fun _ => (checkLinks_exact env g op 0 [] parts _).iff
    (chained_iff hpin hold hnew).symm)

end links

section dirs
variable {g : Files} {here q : Path} {names : List String}

lemma made_of_not_mem (h : q ∉ places here names) : made g here names q = g q := by
  induction names generalizing g here with
  | nil => rfl
  | cons n ns ih =>
    rw [places,List.mem_cons,not_or] at h
    rw [made,ih h.2,Function.update_of_ne h.1]

lemma made_of_mem (h : q ∈ places here names) : made g here names q = some .dir := by
  induction names generalizing g here with
  | nil => cases h
  | cons n ns ih =>
    unfold made
    by_cases htail : q ∈ places (here ++ [n]) ns
    · exact ih htail
    · unfold places at h
      rw [made_of_not_mem htail,(List.mem_cons.mp h).resolve_right htail,Function.update_self]

/-- The places of new directories are below the first of them. -/
lemma mem_places (h : q ∈ places here names) :
    ∃ n ns below, names = n :: ns ∧ q = here ++ [n] ++ below ∧
    q.length ≤ here.length+names.length := by
  induction names generalizing here with
  | nil => cases h
  | cons n ns ih =>
    refine ⟨n,ns,?_⟩
    unfold places at h
    obtain rfl | htail := List.mem_cons.mp h
    · exact ⟨[],rfl,by simp,by simp⟩
    · obtain ⟨m,ms,below,rfl,rfl,hlen⟩ := ih htail
      refine ⟨[m] ++ below,rfl,by simp,?_⟩
      simp only [List.length_append,List.length_cons,List.length_nil] at hlen ⊢
      omega

lemma getLastD_places : (places here names).getLastD here = here ++ names := by
  induction names generalizing here with
  | nil => rw [List.append_nil]; rfl
  | cons n ns ih =>
    unfold places
    rw [List.getLastD_cons,ih,List.append_assoc]
    rfl

@[simp] lemma lastPlace_append (ds : List Path) (names : List String) :
    lastPlace (ds ++ places (lastPlace ds) names) = lastPlace ds ++ names := by
  cases hp : places (lastPlace ds) names with
  | nil =>
    cases names with
    | nil => rw [List.append_nil,List.append_nil]
    | cons n ns => cases hp
  | cons d ds' =>
    rw [← getLastD_places,hp]
    simp [lastPlace,List.getLastD_eq_getLast?]

/-- Nothing stands below a place where nothing stands. -/
lemma Tree.void (tree : Tree) {n : String} (h : tree.node (here ++ [n]) = none) :
    Void tree.node (here ++ [n]) := by
  intro below
  induction below using List.reverseRecOn with
  | nil => rw [List.append_nil]; exact h
  | append_singleton below m ih =>
    by_contra hne
    rw [← List.append_assoc] at hne
    obtain hnil | hdir := tree.closed _ m hne
    · simp at hnil
    · rw [ih] at hdir
      cases hdir

end dirs

section walk
variable {env : Env} {p : PinnedTarget} {files : Files}

lemma drop_dirs (p : PinnedTarget) (j : ℕ) (h : p.dirs.length ≤ j) : p.dirs[j]? = none :=
    List.getElem?_eq_none h

/-- The walk opens the root, enters the pinned directories and goes on behind them. -/
lemma openVerifiedParent_exact (hpin : pinDirs files [] p.parts = some p.dirs) {D : Prop}
    {c : List Path} {t : Files}
    {R : WriteErr → Files → Prop}
    (hrest : Exact files (p.enterDirs env p.dirs.length (lastPlace p.dirs) p.missing) D c t R) :
    Exact files (p.openVerifiedParent env) (Enters env p files ∧ D) (p.dirs ++ c) t
      (fun e t => (¬ Enters env p files ∧ Unchanged files e t) ∨ (Enters env p files ∧ R e t)) := by
  have hdirs := enterDirs_exact (i := 0) p hpin rfl (by rw [Nat.zero_add]; exact hrest)
  unfold PinnedTarget.openVerifiedParent
  refine (Exact.bind ((attempt_exact env files .openRoot).weaken ?_) (fun h1 =>
    Exact.bind ((attempt_exact env files .statRoot).weaken ?_) (fun h2 => hdirs.weaken ?_))).iff ?_
  · intro hn e t hr
    exact .inl ⟨fun h => hn h.1,hr⟩
  · intro hn e t hr
    exact .inl ⟨fun h => hn h.2.1,hr⟩
  · intro _ e t hr
    have hall : Enters env p files ↔ EntersPinned env files 0 [] p.dirs p.parts :=
      ⟨fun h => h.2.2,fun h => ⟨h1,h2,h⟩⟩
    rw [hall]
    exact hr
  · unfold Enters
    rw [and_assoc,and_assoc]

/-- A path whose directories all exist is walked without a change. -/
lemma walk_existing (hpin : pinDirs files [] p.parts = some p.dirs) (hmissing : p.missing = []) :
    Exact files (p.openVerifiedParent env) (Enters env p files) p.chain files
    (Unchanged files) := by
  have hrest : Exact files (p.enterDirs env p.dirs.length
    (lastPlace p.dirs) p.missing) True p.newDirs files
      (Unchanged files) := by
    rw [PinnedTarget.newDirs,hmissing]
    exact Exact.pure
  refine ((openVerifiedParent_exact hpin hrest).weaken (fun _ e t hr => ?_)).iff (by rw [and_true])
  exact hr.elim And.right And.right

/-- A link that leads nowhere ends the walk without a change. -/
lemma walk_dangling (hpin : pinDirs files [] p.parts = some p.dirs) {n : String} {ns : List String}
    (hmissing : p.missing = n :: ns)
    (hlink : files (lastPlace p.dirs ++ [n]) = some (.link .missing)) :
    Exact files (p.openVerifiedParent env) False p.chain files (Unchanged files) := by
  have hrest : Exact files (p.enterDirs env p.dirs.length
    (lastPlace p.dirs) p.missing) False p.newDirs files
      (Unchanged files) := by
    rw [hmissing,PinnedTarget.enterDirs]
    have henter : p.enterDir env p.dirs.length (lastPlace p.dirs) n = enterMissing env p.dirs.length
      (lastPlace p.dirs) n := by
      rw [PinnedTarget.enterDir,drop_dirs p _ (le_refl _)]
    rw [henter]
    have hstuck : Exact files (enterMissing env p.dirs.length (lastPlace p.dirs) n) False [] files
      (Unchanged files) :=
      enterMissing_dangling hlink
    exact (Exact.bind (D := False) hstuck False.elim).iff (by simp)
  refine ((openVerifiedParent_exact hpin hrest).weaken (fun _ e t hr => ?_)).iff (by rw [and_false])
  exact hr.elim And.right And.right

/-- Where nothing stands behind the existing directories, the others are made; what was made
stays. -/
lemma walk_missing (hpin : pinDirs files [] p.parts = some p.dirs) {n : String} {ns : List String}
    (hmissing : p.missing = n :: ns) (hvoid : Void files (lastPlace p.dirs ++ [n])) :
    Exact files (p.openVerifiedParent env) (Enters env p files ∧
      MakesDirs env p.dirs.length p.missing) p.chain
      (made files (lastPlace p.dirs) p.missing) (fun e t => writeMayHaveChanged e = false ∧
        (t = files ↔ ¬ Enters env p files ∨ env.fails (.mkdir p.dirs.length) = true)) := by
  have hrest := @enterMissings_exact env files (lastPlace p.dirs) p.dirs.length p p.missing
    (drop_dirs p)
    (fun m ms hm => by rw [hmissing] at hm; cases hm; exact hvoid)
  refine (openVerifiedParent_exact hpin hrest).weaken (fun _ e t hr => ?_)
  obtain ⟨hno,hflag,rfl⟩ | ⟨henters,hflag,k,hk,rfl,hzero⟩ := hr
  · exact ⟨hflag,iff_of_true rfl (.inl hno)⟩
  · refine ⟨hflag,?_⟩
    rw [← hzero]
    cases k with
    | zero => exact iff_of_true rfl (.inr rfl)
    | succ k =>
      refine iff_of_false ?_ (by simp [henters])
      intro he
      have hhere : made files (lastPlace p.dirs) (p.missing.take (k+1)) (lastPlace p.dirs ++
        [n]) = some .dir := by
        refine made_of_mem ?_
        rw [hmissing,List.take_succ_cons]
        exact List.mem_cons_self
      have hnone := hvoid []
      rw [List.append_nil] at hnone
      rw [he,hnone] at hhere
      cases hhere

end walk

section leaf
variable {env : Env} {p : PinnedTarget} {files g : Files} {place : Path} {data : Bytes}

/-- A file is there and is not a link. -/
lemma verifyLeafIdentity_exact {op : Op} {leaf : String} {node : Node} (h : g place = some node)
    (hlink : ∀ t, node ≠ .link t) :
    Exact g (verifyLeafIdentity env op place leaf) (env.fails op = false) () g (Unchanged g) := by
  unfold verifyLeafIdentity
  refine Exact.before (attempt_exact env g op) (fun _ => Exact.after (lookup_exact g place) ?_)
  rw [h]
  cases node with
  | link t => exact absurd rfl (hlink t)
  | dir => exact Exact.pure
  | file bytes links => exact Exact.pure
  | other => exact Exact.pure

/-- A file that did not exist is created. -/
lemma openLeaf_new (hnew : p.targetExisted = false) (h : g place = none) :
    Exact g (p.openLeaf env place) (env.fails .openLeaf = false) () (Function.update g place
      (some (.file [] 1)))
      (Unchanged g) := by
  unfold PinnedTarget.openLeaf
  refine Exact.before (attempt_exact env g _) (fun _ => Exact.after (lookup_exact g place) ?_)
  rw [hnew,h]
  exact put_exact g place _

/-- An existing file is opened unless it is a directory. -/
lemma openLeaf_existing (hold : p.targetExisted = true) {node : Node} (h : g place = some node)
    (hlink : ∀ t, node ≠ .link t) :
    Exact g (p.openLeaf env place) (env.fails .openLeaf = false ∧
      node ≠ .dir) () g (Unchanged g) := by
  unfold PinnedTarget.openLeaf
  refine Exact.bind (attempt_exact env g _) (fun _ => Exact.after (lookup_exact g place) ?_)
  rw [hold,h]
  cases node with
  | link t => exact absurd rfl (hlink t)
  | dir => exact (Exact.exit ⟨rfl,rfl⟩).iff (by simp)
  | file bytes links => exact Exact.pure.iff (by simp)
  | other => exact Exact.pure.iff (by simp)

/-- What was opened passes if it is a regular file and its path has no link. -/
lemma checkOpened_exact (hpin : pinDirs files [] p.parts = some p.dirs)
    (hold : ∀ q, files q ≠ none → g q = files q)
    (hnew : ∀ q ∈ p.newDirs, g q = some .dir) :
    Exact g (p.checkOpened env p.chain place) (env.fails .statLeaf = false ∧
      (∃ bytes links, g place = some (.file bytes links)) ∧ env.fails .lstatOpened = false ∧
      env.fails .lstatRoot = false ∧
      Linked env files .lstatLink 0 [] p.dirs p.parts) () g (Unchanged g) := by
  have hlinked := @stillLinked_exact env files g .lstatLink .lstatRoot p.parts p.dirs hpin hold hnew
  unfold PinnedTarget.checkOpened
  refine Exact.bind (attempt_exact env g _) (fun _ => Exact.after (lookup_exact g place) ?_)
  cases h : g place with
  | none => exact (Exact.exit ⟨rfl,rfl⟩).iff (by simp)
  | some node =>
    cases node with
    | file bytes links =>
      exact (Exact.bind (attempt_exact env g _) (fun _ => hlinked)).iff (by simp)
    | dir => exact (Exact.exit ⟨rfl,rfl⟩).iff (by simp)
    | link t => exact (Exact.exit ⟨rfl,rfl⟩).iff (by simp)
    | other => exact (Exact.exit ⟨rfl,rfl⟩).iff (by simp)

lemma linkCount_exact {bytes : Bytes} {links : ℕ} (h : g place = some (.file bytes links)) :
    Exact g (PinnedTarget.linkCount env place) (env.fails .linkCount = false ∧
      links ≤ 1) () g (Unchanged g) := by
  unfold PinnedTarget.linkCount
  refine Exact.bind (attempt_exact env g _) (fun _ => Exact.after (lookup_exact g place) ?_)
  rw [h]
  dsimp only
  by_cases hl : 1 < links
  · rw [if_pos hl]
    exact (Exact.exit ⟨rfl,rfl⟩).iff (iff_of_false (by omega) id)
  · rw [if_neg hl]
    exact Exact.pure.iff (iff_of_true (by omega) trivial)

/-- A file is written and closed, or left with some of the data. -/
lemma writeAndClose_run (writing syncing closing : Op) (place : Path) (data : Bytes) (g : Files) :
    (env.fails writing = false ∧ env.fails syncing = false ∧ env.fails closing = false ∧
      writeAndClose env writing syncing closing place data g = (.ok none,
        Function.update g place (some (.file data 1)))) ∨
    (¬ (env.fails writing = false ∧ env.fails syncing = false ∧ env.fails closing = false) ∧
      ∃ op bytes, writeAndClose env writing syncing closing place data g =
        (.ok (some (.failed op)),Function.update g place (some (.file bytes 1)))) := by
  unfold writeAndClose
  cases hw : env.fails writing with
  | true => exact .inr ⟨by simp,writing,data.take env.written,rfl⟩
  | false =>
    cases hs : env.fails syncing with
    | true => exact .inr ⟨by simp,syncing,data,rfl⟩
    | false =>
      cases hc : env.fails closing with
      | true => exact .inr ⟨by simp,closing,data,rfl⟩
      | false => exact .inl ⟨rfl,rfl,rfl,rfl⟩

lemma publishDir_told {t : Files} (h : Stored p files data t) :
    Told p files data (publishDir env t) := by
  unfold publishDir
  cases env.fails .syncDir with
  | true =>
    rw [if_pos rfl]
    intro hflag
    cases hflag
  | false =>
    rw [if_neg (by simp)]
    exact h

end leaf

lemma write_eq (p : PinnedTarget) (env : Env) (data : Bytes) :
    p.write env data = p.openVerifiedParent env >>= p.fill env data := rfl

/-- The files behind the walk of a write to a leaf that does not exist. -/
structure Fresh (p : PinnedTarget) (files g : Files) : Prop where
  absent : files p.place = none
  dirs : ∀ q ∈ p.newDirs, files q = none ∧ g q = some .dir
  rest : ∀ q, q ∉ p.newDirs → g q = files q
  leaf : p.place ∉ p.newDirs

section new
variable {env : Env} {p : PinnedTarget} {files g : Files} {data : Bytes}

lemma fresh_made (hvoid : ∀ n ns, p.missing = n :: ns → Void files (lastPlace p.dirs ++ [n]))
    (hleaf : p.missing = [] → files p.place = none) :
    Fresh p files (made files (lastPlace p.dirs) p.missing) where
  absent := by
    cases hm : p.missing with
    | nil => exact hleaf hm
    | cons n ns =>
      have hbelow : p.place = lastPlace p.dirs ++ [n] ++ (ns ++ [p.leaf]) := by
        rw [PinnedTarget.place,PinnedTarget.chain,PinnedTarget.newDirs,lastPlace_append,hm]
        simp
      rw [hbelow]
      exact hvoid n ns hm _
  dirs := by
    intro q hq
    obtain ⟨n,ns,below,hm,rfl,_⟩ := mem_places hq
    exact ⟨hvoid n ns hm below,made_of_mem hq⟩
  rest := fun q hq => made_of_not_mem hq
  leaf := by
    intro hq
    obtain ⟨_,_,_,_,_,hlen⟩ := mem_places hq
    rw [PinnedTarget.place,PinnedTarget.chain,PinnedTarget.newDirs,lastPlace_append] at hlen
    simp only [List.length_append,List.length_cons,List.length_nil] at hlen
    omega

namespace Fresh

lemma free (h : Fresh p files g) : g p.place = none := by
  rw [h.rest _ h.leaf,h.absent]

lemma old (h : Fresh p files g) (node : Option Node) (q : Path) (hq : files q ≠ none) :
    Function.update g p.place node q = files q := by
  have hplace : q ≠ p.place := by
    rintro rfl
    exact hq h.absent
  have hdir : q ∉ p.newDirs := fun hmem => hq (h.dirs q hmem).1
  rw [Function.update_of_ne hplace,h.rest q hdir]

lemma new (h : Fresh p files g) (node : Option Node) (q : Path) (hq : q ∈ p.newDirs) :
    Function.update g p.place node q = some .dir := by
  have hplace : q ≠ p.place := by
    rintro rfl
    exact h.leaf hq
  rw [Function.update_of_ne hplace,(h.dirs q hq).2]

lemma changed (h : Fresh p files g) (node : Node) :
    Function.update g p.place (some node) ≠ files := by
  intro he
  have hnone := h.absent
  rw [← he,Function.update_self] at hnone
  cases hnone

lemma stored (h : Fresh p files g) :
    Stored p files data (Function.update g p.place (some (.file data 1))) where
  leaf := Function.update_self _ _ _
  dirs := fun q hq => ⟨(h.dirs q hq).1,h.new _ q hq⟩
  rest := by
    intro q hplace hdir
    rw [Function.update_of_ne hplace,h.rest q hdir]

end Fresh

/-- A new file that could not be finished is taken away, reported, or left behind. -/
lemma fillCreated_told (h : Fresh p files g) :
    Told p files data (PinnedTarget.fillCreated env p.place data
      (Function.update g p.place (some (.file [] 1)))) ↔
      Stores env ∨ env.fails .lstatUnfinished = false ∧
      (env.fails .removeUnfinished = true ∨ g = files) := by
  unfold PinnedTarget.fillCreated Stores
  obtain ⟨h1,h2,h3,hrun⟩ | ⟨hno,op,bytes,hrun⟩ := writeAndClose_run .write .sync .close p.place data
    (Function.update g p.place (some (.file [] 1)))
  · rw [Function.update_idem] at hrun
    rw [told_kept (C := True) ⟨fun _ => hrun,fun hn => absurd trivial hn⟩]
    exact iff_of_true (fun _ => publishDir_told h.stored) (.inl ⟨h1,h2,h3⟩)
  · rw [Function.update_idem] at hrun
    rw [told_kept (C := True) ⟨fun _ => hrun,fun hn => absurd trivial hn⟩]
    dsimp only
    simp only [hno,false_or,true_imp_iff]
    unfold discardCreated
    cases hl : env.fails .lstatUnfinished with
    | true =>
      rw [if_pos rfl]
      refine iff_of_false ?_ (by simp)
      intro htold
      exact h.changed _ (htold rfl)
    | false =>
      rw [if_neg (by simp)]
      cases hr : env.fails .removeUnfinished with
      | true =>
        rw [if_pos rfl]
        refine iff_of_true ?_ (by simp)
        intro hflag
        cases hflag
      | false =>
        rw [if_neg (by simp)]
        have hback : Function.update (Function.update g p.place
          (some (.file bytes 1))) p.place none = g := by
          rw [Function.update_idem,← h.free,Function.update_eq_self]
        change (false = false → Function.update
          (Function.update g p.place (some (.file bytes 1))) p.place none = files) ↔ _
        rw [hback]
        simp

/-- Behind the walk, a new file is created; from there on a failure leaves it behind. -/
lemma fill_new (hpin : pinDirs files [] p.parts = some p.dirs) (hnew : p.targetExisted = false)
    (h : Fresh p files g) :
    Told p files data (p.fill env data p.chain g) ↔ env.fails .openLeaf = false ∧
    Checks env p files ∧ (Stores env ∨
      env.fails .lstatUnfinished = false ∧ (env.fails .removeUnfinished = true ∨ g = files)) ∨
      ¬ env.fails .openLeaf = false ∧ g = files := by
  have hwhen : Exact g (Prog.when (p.targetExisted = true)
    (verifyLeafIdentity env .lstatLeaf p.place p.leaf)) True () g
      (Unchanged files) := by
    rw [Prog.when,if_neg (by rw [hnew]; simp)]
    exact Exact.pure
  have hopened : Function.update g p.place (some (.file [] 1)) p.place = some (.file [] 1) :=
    Function.update_self _ _ _
  have hcheck := @checkOpened_exact env p files _ p.place hpin (h.old (some (.file [] 1)))
    (h.new (some (.file [] 1)))
  change Told p files data ((Prog.when (p.targetExisted = true)
    (verifyLeafIdentity env .lstatLeaf p.place p.leaf) >>=
    fun _ => p.openLeaf env p.place >>= fun _ => p.checkOpened env p.chain p.place >>= fun _ =>
    PinnedTarget.linkCount env p.place >>= fun _ => if p.targetExisted then
      attempt env .closeOriginal >>= fun _ => p.replaceByRename env p.chain data
    else PinnedTarget.fillCreated env p.place data) g) ↔ _
  rw [told_kept hwhen,true_imp_iff,told_bind (K := g = files) (openLeaf_new hnew h.free)
    (fun _ e t hr => ⟨hr.1,by rw [hr.2]⟩),told_lost hcheck (h.changed _),
    told_lost (linkCount_exact hopened) (h.changed _),
    hnew,if_neg (by simp),fillCreated_told h,hopened]
  unfold Checks
  simp only [Option.some.injEq,Node.file.injEq,le_refl,and_true,exists_and_left,exists_eq',true_and]
  tauto

end new

section existing
variable {env : Env} {p : PinnedTarget} {files g : Files} {data : Bytes} {parent temp : Path}
    {leaf : String}

lemma tempSlot_free {tries n : ℕ} (h : tempSlot env files parent leaf tries n = some temp) :
    files temp = none := by
  induction tries generalizing n with
  | zero => cases h
  | succ tries ih =>
    unfold tempSlot at h
    split_ifs at h with _ hfree
    · cases h
      exact hfree
    · exact ih h

/-- A temporary file is created at its place if it has one. -/
lemma createTemp_exact (env : Env) (g : Files) (parent : Path) (leaf : String) (tries n : ℕ) :
    Exact g (createTemp env parent leaf tries n) (tempSlot env g parent leaf tries n).isSome
      ((tempSlot env g parent leaf tries n).getD [])
      (Function.update g ((tempSlot env g parent leaf tries n).getD []) (some (.file [] 1)))
      (Unchanged g) := by
  induction tries generalizing n with
  | zero => exact (Exact.exit ⟨rfl,rfl⟩).iff (by simp [tempSlot])
  | succ tries ih =>
    by_cases hf : env.fails (.readNonce n) ∨ env.fails (.createTemp n)
    · rw [tempSlot,if_pos hf,createTemp]
      refine (Exact.bind (attempt_exact env g _)
        (fun h1 => Exact.bind (D := False) (attempt_exact env g _)
        (fun h2 => absurd hf (by simp [h1,h2])))).iff (by simp)
    · rw [not_or,Bool.not_eq_true,Bool.not_eq_true] at hf
      rw [tempSlot,if_neg (by simp [hf]),createTemp]
      refine (Exact.bind (attempt_exact env g _) (fun _ => Exact.bind (attempt_exact env g _)
        (fun _ =>
        Exact.after (lookup_exact g _) ?_))).iff (D := _) (C := _ ∧ _ ∧
          _) (by rw [hf.1,hf.2,eq_self_iff_true,true_and,true_and])
      cases hfree : g (parent ++ [tempName env leaf n]) with
      | none =>
        rw [if_pos rfl]
        exact Exact.after (put_exact g _ _) (Exact.pure.iff (by simp))
      | some node =>
        rw [if_neg (by simp)]
        exact ih (n+1)

lemma newDirs_existing (hmissing : p.missing = []) : p.newDirs = [] := by
  rw [PinnedTarget.newDirs,hmissing]
  rfl

/-- The temporary file is filled and renamed, or stays beside the leaf. -/
lemma fillAndRename_exact (hpin : pinDirs files [] p.parts = some p.dirs)
    (hmissing : p.missing = []) {bytes : Bytes} {links : ℕ}
    (hfile : files p.place = some (.file bytes links)) (hfree : files temp = none) :
    Exact (Function.update files temp (some (.file [] 1)))
    (p.fillAndRename env p.chain p.place temp data)
      (Renames env p files) () (Function.update files p.place (some (.file data 1)))
      (fun e t => writeMayHaveChanged e = false ∧ ∃ bytes,
        t = Function.update files temp (some (.file bytes 1))) := by
  have hne : p.place ≠ temp := by
    intro he
    rw [he,hfree] at hfile
    cases hfile
  have hold : ∀ q, files q ≠ none →
    Function.update files temp (some (.file data 1)) q = files q := by
    intro q hq
    refine Function.update_of_ne ?_ _ _
    rintro rfl
    exact hq hfree
  have hfile' : Function.update files temp (some (.file data 1)) p.place = some
    (.file bytes links) := by
    rw [hold _ (by rw [hfile]; simp),hfile]
  have hweak : ∀ {α : Type} {x : Act α} {C : Prop} {a : α} {bytes : Bytes} {t : Files},
      Exact (Function.update files temp (some (.file bytes 1))) x C a t
      (Unchanged (Function.update files temp (some (.file bytes 1)))) →
      Exact (Function.update files temp (some (.file bytes 1))) x C a t
        (fun e t => writeMayHaveChanged e = false ∧ ∃ bytes,
          t = Function.update files temp (some (.file bytes 1))) :=
    fun hx => hx.weaken (fun _ e t hr => ⟨hr.1,_,hr.2⟩)
  have hlinked := @stillLinked_exact env files _ .lstatLinkAgain .lstatRootAgain p.parts p.dirs
    hpin hold
    (by rw [show places (lastPlace p.dirs) (p.parts.drop p.dirs.length) =
      [] from newDirs_existing hmissing]; simp)
  unfold PinnedTarget.fillAndRename Renames
  refine Exact.bind (hweak (attempt_exact env _ _)) (fun _ => ?_)
  obtain ⟨h1,h2,h3,hrun⟩ | ⟨hno,op,bytes',hrun⟩ :=
    writeAndClose_run .writeTemp .syncTemp .closeTemp temp data
    (Function.update files temp (some (.file [] 1)))
  · rw [Function.update_idem] at hrun
    refine (Exact.after ⟨fun _ => hrun,fun hn => absurd trivial hn⟩ (Exact.bind
      (hweak (verifyLeafIdentity_exact hfile' (by simp))) (fun _ =>
        Exact.bind (hweak hlinked) (fun _ =>
      Exact.before (hweak (attempt_exact env _ _)) (fun _ => ?_))))).iff ?_
    · refine Exact.after (lookup_exact _ _) (Exact.after (put_exact _ _ _) ?_)
      rw [Function.update_self]
      have hend : Function.update files p.place (some (.file data 1)) = Function.update
          (Function.update (Function.update files temp (some (.file data 1))) p.place
            (some (.file data 1))) temp none := by
        rw [Function.update_comm hne.symm,Function.update_idem,Function.update_comm hne,← hfree,
          Function.update_eq_self]
      rw [hend]
      exact put_exact _ _ _
    · rw [h1,h2,h3]
      simp [and_assoc]
  · rw [Function.update_idem] at hrun
    refine (Exact.after (D := False) ⟨fun _ => hrun,fun hn => absurd trivial hn⟩
      (Exact.exit ⟨rfl,_,rfl⟩)).iff ?_
    exact ⟨fun h => hno h.1,False.elim⟩

lemma stored_existing (hmissing : p.missing = []) :
    Stored p files data (Function.update files p.place (some (.file data 1))) where
  leaf := Function.update_self _ _ _
  dirs := by
    rw [newDirs_existing hmissing]
    simp
  rest := fun q hq _ => Function.update_of_ne hq _ _

/-- A file is replaced through a temporary file, which stays if it is neither renamed nor
removed. -/
lemma replaceByRename_told (hpin : pinDirs files [] p.parts = some p.dirs)
    (hmissing : p.missing = []) {bytes : Bytes}
    {links : ℕ} (hfile : files p.place = some (.file bytes links)) :
    Told p files data (p.replaceByRename env p.chain data files) ↔
      ((tempSlot env files (lastPlace p.chain) p.leaf 16 0).isSome →
        Renames env p files ∨ env.fails .removeTemp = false) := by
  unfold PinnedTarget.replaceByRename
  rw [told_kept (createTemp_exact env files (lastPlace p.chain) p.leaf 16 0)]
  refine imp_congr_right (fun hslot => ?_)
  obtain ⟨temp,htemp⟩ := Option.isSome_iff_exists.mp hslot
  have hfree := tempSlot_free htemp
  rw [htemp,Option.getD_some]
  have hrescue := (@fillAndRename_exact env p files data temp hpin hmissing bytes links hfile
    hfree).rescue
    (h := fun err => do
      Prog.when (env.fails .removeTemp = false) (put temp none)
      Prog.exit err)
    (Q := fun e t => writeMayHaveChanged e = false ∧ (t = files ↔ env.fails .removeTemp = false)) ?_
  · refine Iff.trans (told_bind hrescue (fun _ e t hr => hr)) ?_
    have hdone := @publishDir_told env p files data _ (stored_existing hmissing)
    tauto
  · rintro _ e _ ⟨hflag,bytes',rfl⟩
    cases hrem : env.fails .removeTemp with
    | false =>
      refine ⟨e,_,rfl,hflag,iff_of_true ?_ rfl⟩
      change Function.update (Function.update files temp (some (.file bytes' 1))) temp none = files
      rw [Function.update_idem,← hfree,Function.update_eq_self]
    | true =>
      refine ⟨e,_,rfl,hflag,iff_of_false ?_ (by simp)⟩
      intro he
      rw [← he,Function.update_self] at hfree
      cases hfree

/-- Behind the walk, an existing file is checked and then replaced. -/
lemma fill_existing (hpin : pinDirs files [] p.parts = some p.dirs) (hmissing : p.missing = [])
    (hold : p.targetExisted = true) {node : Node} (hnode : files p.place = some node)
    (hlink : ∀ t, node ≠ .link t) :
    Told p files data (p.fill env data p.chain files) ↔
      (Readies env p files → Renames env p files ∨ env.fails .removeTemp = false) := by
  have hwhen : Exact files (Prog.when (p.targetExisted = true)
    (verifyLeafIdentity env .lstatLeaf p.place p.leaf))
      (env.fails .lstatLeaf = false) () files (Unchanged files) := by
    rw [Prog.when,if_pos hold]
    exact verifyLeafIdentity_exact hnode hlink
  have hcheck := @checkOpened_exact env p files files p.place hpin (fun _ _ => rfl)
    (by rw [newDirs_existing hmissing]; simp)
  change Told p files data ((Prog.when (p.targetExisted = true)
    (verifyLeafIdentity env .lstatLeaf p.place p.leaf) >>=
    fun _ => p.openLeaf env p.place >>= fun _ => p.checkOpened env p.chain p.place >>= fun _ =>
    PinnedTarget.linkCount env p.place >>= fun _ => if p.targetExisted then
      attempt env .closeOriginal >>= fun _ => p.replaceByRename env p.chain data
    else PinnedTarget.fillCreated env p.place data) files) ↔ _
  rw [told_kept hwhen,told_kept (openLeaf_existing hold hnode hlink),told_kept hcheck]
  unfold Readies Checks
  by_cases hfile : ∃ bytes links, files p.place = some (.file bytes links)
  · obtain ⟨bytes,links,hfile⟩ := hfile
    rw [told_kept (linkCount_exact hfile),hold,if_pos rfl,
      told_kept (attempt_exact env files .closeOriginal),
      replaceByRename_told hpin hmissing hfile]
    have hdir : node ≠ .dir := by
      rintro rfl
      rw [hfile] at hnode
      cases hnode
    constructor
    · rintro htold ⟨h1,h2,⟨h3,h4,h5,h6,h7⟩,⟨_,_,he,h8⟩,h9,h10⟩
      rw [hfile] at he
      cases he
      exact htold h1 ⟨h2,hdir⟩ ⟨h3,⟨_,_,hfile⟩,h4,h5,h6⟩ ⟨h7,h8⟩ h9 h10
    · rintro hready h1 ⟨h2,_⟩ ⟨h3,_,h4,h5,h6⟩ ⟨h7,h8⟩ h9 h10
      exact hready ⟨h1,h2,⟨h3,h4,h5,h6,h7⟩,⟨_,_,hfile,h8⟩,h9,h10⟩
  · refine iff_of_true (fun _ _ h => absurd h.2.1 hfile) ?_
    rintro ⟨_,_,_,⟨bytes,links,he,_⟩,_⟩
    exact absurd ⟨bytes,links,he⟩ hfile

end existing

/-- What pinning found of the path and its leaf. -/
lemma pinWriteTarget_cases {files : Files} {parts : List String} {leaf : String} {p : PinnedTarget}
    (h : pinWriteTarget files parts leaf = some p) : pinDirs files [] p.parts = some p.dirs ∧
      ((p.targetExisted = true ∧ p.missing = [] ∧ ∃ node, files p.place = some node ∧ ∀ t,
        node ≠ .link t) ∨
        (p.targetExisted = false ∧ (p.missing = [] → files p.place = none))) := by
  unfold pinWriteTarget at h
  cases hpin : pinDirs files [] parts with
  | none =>
    rw [hpin] at h
    cases h
  | some dirs =>
    have hplace : ∀ existed : Bool, dirs.length = parts.length →
        (⟨parts,leaf,dirs,existed⟩ : PinnedTarget).missing = [] ∧
        (⟨parts,leaf,dirs,existed⟩ : PinnedTarget).place = lastPlace dirs ++ [leaf] := by
      intro existed hlen
      have hmissing : (⟨parts,leaf,dirs,existed⟩ : PinnedTarget).missing = [] := by
        rw [PinnedTarget.missing,hlen,List.drop_length]
      refine ⟨hmissing,?_⟩
      rw [PinnedTarget.place,PinnedTarget.chain,newDirs_existing hmissing,List.append_nil]
    rw [hpin] at h
    dsimp only at h
    split_ifs at h with hlen
    · cases hf : files (lastPlace dirs ++ [leaf]) with
      | none =>
        rw [hf] at h
        cases h
        exact ⟨hpin,.inr ⟨rfl,fun _ => by rw [(hplace false hlen).2,hf]⟩⟩
      | some node =>
        rw [hf] at h
        cases node with
        | link t => cases h
        | dir =>
          cases h
          exact ⟨hpin,.inl ⟨rfl,(hplace true hlen).1,.dir,by rw [(hplace true hlen).2,hf],by simp⟩⟩
        | file bytes links =>
          cases h
          exact ⟨hpin,.inl ⟨rfl,(hplace true hlen).1,.file bytes links,
            by rw [(hplace true hlen).2,hf],by simp⟩⟩
        | other =>
          cases h
          exact ⟨hpin,.inl ⟨rfl,(hplace true hlen).1,.other,by rw [(hplace true hlen).2,hf],
            by simp⟩⟩
    · cases h
      refine ⟨hpin,.inr ⟨rfl,fun hm => ?_⟩⟩
      have hle : dirs.length ≤ parts.length := (pinDirs_rest hpin).1
      have hge : parts.length ≤ dirs.length := List.drop_eq_nil_iff.mp hm
      omega

/-- A pinned write tells the truth about the files exactly if it is tidy: if everything that it puts
there and does not finish is taken away again. -/
theorem write_told_iff_tidy (tree : Tree) (parts : List String) (leaf : String) (env : Env)
    (data : Bytes) (p : PinnedTarget)
    (h : pinWriteTarget tree.node parts leaf = some p) :
    Told p tree.node data (p.write env data tree.node) ↔ Tidy env p tree.node := by
  obtain ⟨hpin,hcase⟩ := pinWriteTarget_cases h
  rw [write_eq]
  unfold Tidy
  obtain ⟨hold,hmissing,node,hnode,hlink⟩ | ⟨hnew,hleaf⟩ := hcase
  · rw [told_kept (walk_existing hpin hmissing),fill_existing hpin hmissing hold hnode hlink,hold,
      if_pos rfl]
  · rw [hnew,if_neg (by simp)]
    cases hmissing : p.missing with
    | nil =>
      have hfresh : Fresh p tree.node tree.node := by
        have := fresh_made (p := p) (by rw [hmissing]; simp) hleaf
        rw [hmissing] at this
        exact this
      rw [told_kept (walk_existing hpin hmissing),fill_new hpin hnew hfresh]
      simp only [or_true,and_true]
      tauto
    | cons n ns =>
      have hend := (pinDirs_rest hpin).2
      rw [show p.parts.drop p.dirs.length = n :: ns from hmissing] at hend
      obtain hnil | ⟨n',ns',heq,hnone | hlink⟩ := hend
      · cases hnil
      · cases heq
        have hvoid := tree.void hnone
        have hfresh := fresh_made (p := p)
          (fun m ms hm => by rw [hmissing] at hm; cases hm; exact hvoid) hleaf
        have hother : made tree.node (lastPlace p.dirs) p.missing ≠ tree.node := by
          intro he
          have hdir := @made_of_mem tree.node (lastPlace p.dirs) (lastPlace p.dirs ++ [n]) p.missing
            (by rw [hmissing]; exact List.mem_cons_self)
          rw [he] at hdir
          rw [show tree.node (lastPlace p.dirs ++ [n]) = none from hnone] at hdir
          cases hdir
        rw [told_bind (walk_missing hpin hmissing hvoid) (fun _ e t hr => hr),
          fill_new hpin hnew hfresh]
        simp only [hother,or_false,and_false]
        rw [hmissing]
        constructor
        · rintro (⟨⟨_,hmakes⟩,hrest⟩ | ⟨_,hno | hfail⟩) _ henters hmkdir
          · exact ⟨hmakes,hrest⟩
          · exact absurd henters hno
          · rw [hmkdir] at hfail
            cases hfail
        · intro hall
          by_cases henters : Enters env p tree.node
          · cases hmkdir : env.fails (.mkdir p.dirs.length) with
            | false =>
              obtain ⟨hmakes,hrest⟩ := hall hnone henters hmkdir
              exact .inl ⟨⟨henters,hmakes⟩,hrest⟩
            | true =>
              refine .inr ⟨fun hmakes => ?_,.inr rfl⟩
              have := hmakes.2.1
              rw [hmkdir] at this
              cases this
          · exact .inr ⟨fun hmakes => henters hmakes.1,.inl henters⟩
      · cases heq
        rw [told_kept (walk_dangling hpin hmissing hlink)]
        refine iff_of_true False.elim ?_
        intro hnone
        rw [show tree.node (lastPlace p.dirs ++ [n]) = some (.link .missing) from hlink] at hnone
        cases hnone

/-- A directory, and a link to it beside it. -/
def linkedTree : Tree where
  node := fun place => if place = ["docs"] then some .dir else if place = ["link"] then
    some (.link (.inside ["docs"] true))
    else none
  closed := by
    intro place name h
    left
    by_contra hne
    refine h ?_
    have hlen : ∀ s : String, place ++ [name] ≠ [s] := by
      intro s he
      have := congrArg List.length he
      rw [List.length_append,List.length_singleton,List.length_singleton] at this
      exact hne (List.length_eq_zero_iff.mp (by omega))
    rw [if_neg (hlen _),if_neg (hlen _)]

/-- No operation fails. -/
def soundEnv : Env := ⟨fun _ => false,0,fun _ => ""⟩

theorem write_told_iff_tidy_docs :
    pinWriteTarget linkedTree.node ["docs"] "a" = some ⟨["docs"],"a",[["docs"]],false⟩ ∧
    Told ⟨["docs"],"a",[["docs"]],false⟩ linkedTree.node [1] (PinnedTarget.write ⟨["docs"],"a",
      [["docs"]],false⟩ soundEnv [1] linkedTree.node) :=
  ⟨by decide,(write_told_iff_tidy linkedTree ["docs"] "a" soundEnv [1] _ (by decide)).mpr
    (fun _ _ => ⟨⟨rfl,rfl,rfl,⟨rfl,by decide,trivial⟩,rfl⟩,.inl ⟨rfl,rfl,rfl⟩⟩)⟩

/-- A write through a link to a directory is refused once the file was created, and the empty file
stays, though no operation failed and the refusal is reported as having changed nothing. -/
theorem refused_write_leaves_file :
    pinWriteTarget linkedTree.node ["link"] "a" = some ⟨["link"],"a",[["docs"]],false⟩ ∧
    (PinnedTarget.write ⟨["link"],"a",[["docs"]],false⟩ soundEnv [1] linkedTree.node).1 = .error
    (.changedIdentity "link") ∧
    writeMayHaveChanged (.changedIdentity "link") = false ∧ linkedTree.node ["docs","a"] = none ∧
    (PinnedTarget.write ⟨["link"],"a",[["docs"]],false⟩ soundEnv [1] linkedTree.node).2 ["docs",
      "a"] = some (.file [] 1) ∧
    ¬ Told ⟨["link"],"a",[["docs"]],false⟩ linkedTree.node [1]
      (PinnedTarget.write ⟨["link"],"a",[["docs"]],false⟩ soundEnv [1] linkedTree.node) := by
  have hresult : (PinnedTarget.write ⟨["link"],"a",[["docs"]],
    false⟩ soundEnv [1] linkedTree.node).1 =
      .error (.changedIdentity "link") := by decide
  have hbefore : linkedTree.node ["docs","a"] = none := by decide
  have hafter : (PinnedTarget.write ⟨["link"],"a",[["docs"]],
    false⟩ soundEnv [1] linkedTree.node).2 ["docs","a"] =
      some (.file [] 1) := by decide
  refine ⟨by decide,hresult,rfl,hbefore,hafter,?_⟩
  intro htold
  cases hrun : PinnedTarget.write ⟨["link"],"a",[["docs"]],false⟩ soundEnv [1] linkedTree.node with
  | mk r t =>
    rw [hrun] at hresult hafter htold
    dsimp only at hresult hafter
    rw [hresult] at htold
    rw [htold rfl,hbefore] at hafter
    cases hafter

end Manvi.DevCouncil
