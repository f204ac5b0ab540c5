import Manvi.Graph.Kahn

/-! The harness kernel: plugins, the services they declare and need, and the registry they are
applied to. -/
namespace Manvi.Kernel
open Manvi.Graph

/-- Why a call failed, with what its message names. -/
inductive Failure
  | undeclaredService (owner key : String)
  | alreadyProvided (key existing : String)
  | undeclaredDependency (owner key : String)
  | notRegistered (key : String)
  | otherType (key typ : String)
  | duplicateName (name : String)
  | providedByBoth (key prior name : String)
  | noProvider (name dep : String)
  | cycle (stuck : List String)
  | neverProvided (key : String)
  | failedToApply (name : String) (cause : Failure)
  | notLoaded (name : String)
  | own (text : String)

/-- The message of a failure, over the quoting of a name. -/
def Failure.text (quote : String → String) : Failure → String
  | undeclaredService owner key => "plugin " ++ quote owner ++ " provides undeclared service " ++
    quote key ++ ": add it to Provides()"
  | alreadyProvided key existing => "service " ++ quote key ++ " already provided by plugin " ++
    quote existing
  | undeclaredDependency owner key => "plugin " ++ quote owner ++
    " resolves undeclared dependency " ++ quote key ++ ": add it to Deps()"
  | notRegistered key => "service " ++ quote key ++ " is not registered"
  | otherType key typ => "service " ++ quote key ++ " is " ++ typ ++ ", not the requested type"
  | duplicateName name => "duplicate plugin name " ++ quote name
  | providedByBoth key prior name => "service " ++ quote key ++ " provided by both " ++
    quote prior ++ " and " ++ quote name
  | noProvider name dep => "plugin " ++ quote name ++ " requires service " ++ quote dep ++
    ", which no plugin provides"
  | cycle stuck => "dependency cycle among plugins: " ++ String.intercalate ", " stuck
  | neverProvided key => "declared service " ++ quote key ++ " was never provided"
  | failedToApply name cause => "plugin " ++ quote name ++ " failed to apply: " ++ cause.text quote
  | notLoaded name => "plugin " ++ quote name ++ " is not loaded"
  | own text => text

variable {σ δ : Type}

/-- What Apply does with its context, call after call; it may go on with what each call returned. -/
inductive Script (σ δ : Type)
  | done (dispose : Option δ)
  | fail (err : Failure)
  | provide (key : String) (svc : σ) (rest : Option Failure → Script σ δ)
  | effect (d : Option δ) (rest : Script σ δ)
  | resolve (key : String) (otherType : σ → Option String) (rest : Except Failure σ → Script σ δ)

structure Plugin (σ δ : Type) where
  name : String
  provides : List String
  deps : List String
  script : Script σ δ

/-- A registration that can be undone: a service, or what a plugin recorded of its own. -/
inductive Effect (δ : Type)
  | provided (key : String)
  | own (d : δ)

structure Loaded (δ : Type) where
  name : String
  deps : List String
  dispose : Option δ
  effects : List (Effect δ)

/-- The services and the plugins that provided them, and as history the disposers recorded and those
run. -/
structure Registry (σ δ : Type) where
  services : String → Option σ
  owners : String → Option String
  order : List (Loaded δ)
  recorded : List δ
  undone : List δ

def new : Registry σ δ := ⟨fun _ => none,fun _ => none,[],[],[]⟩

def Registry.has (r : Registry σ δ) (key : String) : Bool := (r.services key).isSome

/-- A plugin's handle on the registry, with what it declared. -/
structure Ctx (σ δ : Type) where
  reg : Registry σ δ
  owner : String
  provides : List String
  deps : List String
  effects : List (Effect δ)

def Ctx.provide (c : Ctx σ δ) (key : String) (svc : σ) : Except Failure (Ctx σ δ) :=
  if !c.provides.contains key then .error (.undeclaredService c.owner key)
  else match c.reg.owners key with
    | some existing => .error (.alreadyProvided key existing)
    | none => .ok { c with
      reg := { c.reg with
        services := Function.update c.reg.services key (some svc)
        owners := Function.update c.reg.owners key (some c.owner) }
      effects := c.effects ++ [.provided key] }

def Ctx.effect (c : Ctx σ δ) : Option δ → Ctx σ δ
  | none => c
  | some d => { c with
    reg := { c.reg with recorded := c.reg.recorded ++ [d] }, effects := c.effects ++ [.own d] }

def Ctx.resolve (c : Ctx σ δ) (key : String) (otherType : σ → Option String) : Except Failure σ :=
  if !c.deps.contains key then .error (.undeclaredDependency c.owner key)
  else match c.reg.services key with
    | none => .error (.notRegistered key)
    | some raw => match otherType raw with
      | some typ => .error (.otherType key typ)
      | none => .ok raw

def Script.run : Script σ δ → Ctx σ δ → Except Failure (Option δ) × Ctx σ δ
  | .done dispose,c => (.ok dispose,c)
  | .fail err,c => (.error err,c)
  | .provide key svc rest,c => match c.provide key svc with
    | .error err => (rest (some err)).run c
    | .ok c' => (rest none).run c'
  | .effect d rest,c => rest.run (c.effect d)
  | .resolve key otherType rest,c => (rest (c.resolve key otherType)).run c

/-- One registration undone. -/
def undo (r : Registry σ δ) : Effect δ → Registry σ δ
  | .provided key => { r with
    services := Function.update r.services key none, owners := Function.update r.owners key none }
  | .own d => { r with undone := r.undone ++ [d] }

def unwind (r : Registry σ δ) (effects : List (Effect δ)) : Registry σ δ :=
  effects.reverse.foldl undo r

/-- A plugin taken out: its disposer first, then its registrations from the last to the first. -/
def tear (r : Registry σ δ) (l : Loaded δ) : Registry σ δ :=
  unwind (match l.dispose with
    | some d => undo r (.own d)
    | none => r) l.effects

def close (r : Registry σ δ) : Registry σ δ := { r.order.reverse.foldl tear r with order := [] }

section errors
variable (fails : δ → Option String)

/-- An error of a teardown, with the plugin it is about. -/
inductive TeardownError
  | dispose (name err : String)
  | unwind (name : String) (errs : List String)

def Effect.error : Effect δ → Option String
  | .provided _ => none
  | .own d => fails d

def unwindErrors (effects : List (Effect δ)) : List String :=
  effects.reverse.filterMap (Effect.error fails)

def tearErrors (l : Loaded δ) : List TeardownError :=
  ((l.dispose.bind fails).map (TeardownError.dispose l.name)).toList
    ++ (if unwindErrors fails l.effects = [] then
      [] else [TeardownError.unwind l.name (unwindErrors fails l.effects)])

def closeErrors (r : Registry σ δ) : List TeardownError :=
  r.order.reverse.flatMap (tearErrors fails)

end errors

def apply (r : Registry σ δ) (p : Plugin σ δ) : Registry σ δ × Option Failure :=
  match p.script.run ⟨r,p.name,p.provides,p.deps,[]⟩ with
  | (.error err,cx) => (unwind cx.reg cx.effects,some err)
  | (.ok dispose,cx) => match p.provides.find? (fun key => !cx.reg.has key) with
    | some key => (unwind cx.reg cx.effects,some (.neverProvided key))
    | none => ({ cx.reg with
        order := cx.reg.order ++ [⟨p.name,p.deps,dispose,cx.effects⟩]
        recorded := cx.reg.recorded ++ dispose.toList },none)

/-- The plugins that go with one: those behind it that need a service of a plugin that goes. -/
def doom (owners : String → Option String) (doomed : String → Bool) (l : Loaded δ) :
    String → Bool :=
  if l.deps.any (fun dep => doomed ((owners dep).getD "")) then Function.update doomed l.name true
    else doomed

/-- The names that go when one plugin is unloaded, from its place in the order on. -/
def doomed (r : Registry σ δ) (name : String) (idx : ℕ) : String → Bool :=
  (r.order.drop idx).foldl (doom r.owners) (fun n => n == name)

def unload (r : Registry σ δ) (name : String) : Except Failure (Registry σ δ) :=
  match r.order.findIdx? (fun l => l.name == name) with
  | none => .error (.notLoaded name)
  | some idx => .ok { (r.order.reverse.filter (fun l => doomed r name idx l.name)).foldl tear r with
      order := r.order.filter (fun l => !doomed r name idx l.name) }

def unloadErrors (fails : δ → Option String) (r : Registry σ δ) (name : String) :
    List TeardownError :=
  match r.order.findIdx? (fun l => l.name == name) with
  | none => []
  | some idx => (r.order.reverse.filter (fun l => doomed r name idx l.name)).flatMap
    (tearErrors fails)

section topoSort

/-- The plugins by their names, and the name of each service's provider. -/
structure Declared (σ δ : Type) where
  byName : String → Option (Plugin σ δ)
  providerOf : String → Option String

def declareKey (name : String) (providerOf : String → Option String) (key : String) :
    Except Failure (String → Option String) :=
  match providerOf key with
  | some prior => .error (.providedByBoth key prior name)
  | none => .ok (Function.update providerOf key (some name))

def declare (d : Declared σ δ) (p : Plugin σ δ) : Except Failure (Declared σ δ) :=
  if (d.byName p.name).isSome then .error (.duplicateName p.name)
  else (p.provides.foldlM (declareKey p.name) d.providerOf).map (fun providerOf =>
    ⟨Function.update d.byName p.name (some p),providerOf⟩)

/-- How many providers a plugin waits for, and the plugins behind a provider. -/
structure Links where
  indegree : String → ℕ
  dependents : String → List String

def linkDep (providerOf : String → Option String) (has : String → Bool) (name : String) (s : Links)
    (dep : String) : Except Failure Links :=
  match providerOf dep with
  | none => if has dep then .ok s else .error (.noProvider name dep)
  | some provider =>
    if provider = name then .ok s
    else .ok ⟨Function.update s.indegree name (s.indegree name+1),
      Function.update s.dependents provider (s.dependents provider ++ [name])⟩

def link (providerOf : String → Option String) (has : String → Bool) (s : Links) (p : Plugin σ δ) :
    Except Failure Links :=
  p.deps.foldlM (linkDep providerOf has p.name) s

/-- The names in boot order, as far as the counts reach. -/
def bootOrder (names : List String) (s : Links) : Queue String :=
  order s.dependents names.length ⟨[],sorted (names.filter (fun n => s.indegree n = 0)),s.indegree⟩

def topoSort (plugins : List (Plugin σ δ)) (has : String → Bool) :
    Except Failure (List (Plugin σ δ)) := do
  let d ← plugins.foldlM declare ⟨fun _ => none,fun _ => none⟩
  let s ← plugins.foldlM (link d.providerOf has) ⟨fun _ => 0,fun _ => []⟩
  let names := plugins.map Plugin.name
  let q := bootOrder names s
  let out := q.out.filterMap d.byName
  if out.length ≠ plugins.length then
    .error (.cycle (sorted (names.filter (fun n => 0 < q.waits n))))
  else .ok out

end topoSort

/-- The plugins applied one after another; the first that fails takes everything down. -/
def applyAll : List (Plugin σ δ) → Registry σ δ → Registry σ δ × Option Failure
  | [],r => (r,none)
  | p :: rest,r => match apply r p with
    | (r',none) => applyAll rest r'
    | (r',some err) => (close r',some (.failedToApply p.name err))

def boot (r : Registry σ δ) (plugins : List (Plugin σ δ)) : Registry σ δ × Option Failure :=
  match topoSort plugins r.has with
  | .error err => (r,some err)
  | .ok out => applyAll out r

end Manvi.Kernel
