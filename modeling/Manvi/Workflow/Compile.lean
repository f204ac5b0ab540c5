import Manvi.Workflow.Spec

/-! The compiler: which capabilities become programs. -/
namespace Manvi.Workflow
open Manvi.Encoding

structure OutputDecl where
  name : String
  type : ValueType
  currency : String
  deriving Repr, DecidableEq

/-- A capability as it is decoded, with what only the compiler reads. -/
structure Artifact extends Capability where
  schemaVersion : ℤ
  id : String
  revision : String
  application : String
  outputs : List OutputDecl

def isLetter (c : Char) : Bool := ('A' ≤ c && c ≤ 'Z') || ('a' ≤ c && c ≤ 'z')

def isNameChar (c : Char) : Bool :=
  isLetter c || ('0' ≤ c && c ≤ '9') || c = '_' || c = '.' || c = '-'

/-- A letter, then at most 95 letters, digits, underscores, dots or dashes. -/
def namePattern (s : String) : Bool :=
  match s.toList with
  | [] => false
  | c :: cs => isLetter c && cs.length ≤ 95 && cs.all isNameChar

/-- The types that a parameter, an output or an extraction may have. -/
def ValueType.supported (t : ValueType) : Bool :=
  t = .string || t = .integer || t = .boolean || t = .money

def validateLimits (l : Limits) : Except String Unit :=
  if l.maxActions < 1 ∨ l.maxActions > 1000 ∨ l.activeSeconds < 1 ∨ l.activeSeconds > 3600 ∨
      l.observationAttempts < 1 ∨ l.observationAttempts > 5 ∨ l.interventionSeconds < 1 ∨
      l.interventionSeconds > 3600 then
    .error "limits are missing or outside supported bounds"
  else .ok ()

def validateParameters (seen : List String) : List Parameter → Except String Unit
  | [] => .ok ()
  | v :: rest =>
    if !namePattern v.name ∨ v.name ∈ seen then .error "invalid or duplicate parameter"
    else if !v.type.supported then .error "unsupported parameter type"
    else validateParameters (v.name :: seen) rest

def validateOutputs (seen : List String) : List OutputDecl → Except String Unit
  | [] => .ok ()
  | o :: rest =>
    if !namePattern o.name ∨ o.name ∈ seen then .error "invalid or duplicate output declaration"
    else if !o.type.supported then .error "unsupported output declaration type"
    else if o.type = .money ∧ !currencyPattern o.currency then
      .error "money output declaration needs currency"
    else if o.type ≠ .money ∧ o.currency ≠ "" then .error "only money outputs can declare currency"
    else validateOutputs (o.name :: seen) rest

/-- The outputs an outcome lists: declared ones when there are declarations, named ones
otherwise. -/
def validateOutcomeOutputs (decls : List OutputDecl) (id : String) (seen : List String) :
    List String → Except String Unit
  | [] => .ok ()
  | name :: rest =>
    if name ∈ seen then .error s!"outcome {repr id} repeats output {repr name}"
    else if decls ≠ [] ∧ !decls.any (fun d => d.name = name) then
      .error s!"outcome {repr id} references undeclared output {repr name}"
    else if decls = [] ∧ !namePattern name then .error "invalid outcome output name"
    else validateOutcomeOutputs decls id (name :: seen) rest

def validateOutcomes (decls : List OutputDecl) (seen : List String) :
    List OutcomeDef → Except String Unit
  | [] => .ok ()
  | o :: rest =>
    if !namePattern o.id ∨ o.id ∈ seen then .error "invalid or duplicate outcome"
    else if o.kind ≠ .success ∧ o.kind ≠ .business then
      .error "outcome kind must be success or business"
    else do
      validateOutcomeOutputs decls o.id [] o.outputs
      validateOutcomes decls (o.id :: seen) rest

section selectors
variable (validateAnchor : VisualAnchor → Except String Unit)

/-- A rung: an anchor and nothing else, or a bounded name or identifier. -/
def validateFlatSelector (name : String) : Selector → Except String Unit
  | .mk visual role label identifier ancestor _ _ _ => match visual with
    | some anchor =>
      if role ≠ "" ∨ label ≠ "" ∨ identifier ≠ "" ∨ ancestor ≠ "" then
        .error s!"target {repr name} mixes visual and semantic selection"
      else match validateAnchor anchor with
        | .error e => .error s!"target {repr name}: {e}"
        | .ok _ => .ok ()
    | none =>
      if (label = "" ∧ identifier = "") ∨ label.utf8ByteSize > 512 ∨ identifier.utf8ByteSize > 512 ∨
          ancestor.utf8ByteSize > 512 then
        .error s!"target {repr name} needs a bounded name or identifier"
      else .ok ()

def validateRungs (name : String) : ℕ → List Selector → Except String Unit
  | _,[] => .ok ()
  | i,.mk visual role label identifier ancestor strategies rationale stability :: rest =>
    if ¬ strategies.isEmpty ∨ rationale ≠ "" ∨ stability ≠ "" then
      .error s!"target {repr name} rung {i} must not nest strategies"
    else do
      validateFlatSelector validateAnchor name
        (.mk visual role label identifier ancestor strategies rationale stability)
      validateRungs name (i+1) rest

def validateTargetSelector (name : String) : Selector → Except String Unit
  | .mk visual role label identifier ancestor strategies rationale stability =>
    if ¬ strategies.isEmpty then
      if role ≠ "" ∨ label ≠ "" ∨ identifier ≠ "" ∨ ancestor ≠ "" ∨ visual.isSome then
        .error s!"target {repr name} mixes flat selector fields with strategies"
      else if rationale = "" then .error s!"target {repr name} strategies require rationale"
      else if stability ≠ "semantic" ∧ stability ≠ "identifier" ∧ stability ≠ "visual" then
        .error s!"target {repr name} stability must be semantic, identifier, or visual"
      else validateRungs validateAnchor name 0 strategies
    else if rationale ≠ "" ∨ stability ≠ "" then .error s!"target {repr name} has empty ladder"
    else validateFlatSelector validateAnchor name
      (.mk visual role label identifier ancestor strategies rationale stability)

def validateTargets : List (String × Selector) → Except String Unit
  | [] => .ok ()
  | (name,s) :: rest =>
    if !namePattern name then .error s!"target {repr name} needs a valid name"
    else do
      validateTargetSelector validateAnchor name s
      validateTargets rest

end selectors

/-- The type of a parameter by its name. -/
def parameterType (params : List Parameter) (name : String) : Option ValueType :=
  (params.find? (fun v => v.name = name)).map Parameter.type

def validateRef (params : List Parameter) (r : Ref) : Except String Unit :=
  if r.source ≠ .literal ∧ r.literal ≠ Value.zero then
    .error "input and output references cannot carry a literal"
  else match r.source with
    | .literal => if r.key ≠ "" then .error "literal cannot have a key" else r.literal.validate
    | .input => if (parameterType params r.key).isNone then .error "unknown input reference"
      else .ok ()
    | .output => if !namePattern r.key then .error "invalid output reference" else .ok ()
    | .other _ => .error "reference source must be literal, input, or output"

def validatePredicate (params : List Parameter) (pred : Predicate) : Except String Unit :=
  if pred.op = .exists then .ok ()
  else if pred.op ≠ .equals ∧ pred.op ≠ .contains ∧ pred.op ≠ .notEquals then
    .error "unsupported predicate"
  else validateRef params pred.expected

def validateRecoveries (params : List Parameter) (targets : Table String Selector)
    (seen : List String) :
    List Recovery → Except String Unit
  | [] => .ok ()
  | r :: rest =>
    if !namePattern r.id ∨ r.id ∈ seen then .error "invalid or duplicate recovery"
    else if (targets.get r.when.target).isNone then
      .error s!"recovery {r.id} references missing when.target"
    else if r.action.kind ≠ .press then .error s!"recovery {r.id} action must be press"
    else if (targets.get r.action.target).isNone then
      .error s!"recovery {r.id} references missing action.target"
    else if r.max < 1 ∨ r.max > 5 then .error s!"recovery {r.id} max must be 1..5"
    else match validatePredicate params r.when.predicate with
      | .error e => .error s!"recovery {r.id}: {e}"
      | .ok _ => validateRecoveries params targets (r.id :: seen) rest

/-- The first rung of a ladder. -/
def Selector.primary (s : Selector) : Selector := s.ladder.head?.getD Selector.zero

/-- What the kind of a step asks of its other fields. -/
def validateStepKind (c : Artifact) (s : Step) : Except String Unit :=
  match s.kind with
  | .press | .click => .ok ()
  | .setValue | .typeText | .scroll => match validateRef c.parameters s.input with
    | .error e => .error s!"step {s.id}: {e}"
    | .ok _ => .ok ()
  | .extract =>
    if !namePattern s.output ∨ !s.outputType.supported then
      .error "extraction needs named typed output"
    else if s.outputType = .money ∧ !currencyPattern s.currency then
      .error "money extraction needs currency"
    else match c.outputs.find? (fun d => d.name = s.output) with
      | none => .ok ()
      | some decl =>
        if decl.type ≠ s.outputType then
          .error s!"extract {s.id} type does not match output declaration"
        else if decl.type = .money ∧ decl.currency ≠ s.currency then
          .error s!"extract {s.id} currency does not match output declaration"
        else .ok ()
  | .assert | .branch | .wait => match validatePredicate c.parameters s.predicate with
    | .error e => .error e
    | .ok _ =>
      if s.kind = .branch ∧ s.otherwise = "" then .error "branch requires otherwise edge"
        else .ok ()
  | .conclude => .error "unsupported step kind \"conclude\""
  | .other name => .error s!"unsupported step kind {repr name}"

/-- A step that only observes. -/
def StepKind.observes (k : StepKind) : Bool :=
  k = .extract || k = .assert || k = .branch || k = .wait

def validateStep (c : Artifact) (s : Step) : Except String Unit :=
  if s.kind = .conclude then
    if s.target ≠ "" ∨ s.effect ≠ .none then
      .error s!"conclude step {s.id} must not set target or effect"
    else if s.outcome = "" ∨ !c.outcomes.any (fun o => o.id = s.outcome) then
      .error s!"conclude step {s.id} needs a declared outcome"
    else if s.otherwise ≠ "" then .error "otherwise is only valid for branches"
    else .ok ()
  else match c.targets.get s.target with
    | none => .error s!"step {s.id} references missing target"
    | some target =>
      if s.effect ≠ .read ∧ s.effect ≠ .change then .error s!"step {s.id} needs explicit effect"
      else if target.primary.visual.isSome ∧ (s.kind ≠ .click ∨ s.effect ≠ .change) then
        .error "visual targets support only explicitly approved change-effect clicks"
      else do
        validateStepKind c s
        if s.kind.observes ∧ s.effect ≠ .read then .error "observation steps must be read-only"
        else if s.outcome ≠ "" then .error s!"step {s.id} cannot set outcome unless conclude"
        else .ok ()

/-- The positions of the steps before, then one for each step that is accepted. -/
def validateSteps (c : Artifact) : ℕ → Table String ℕ → List Step → Except String (Table String ℕ)
  | _,positions,[] => .ok positions
  | i,positions,s :: rest =>
    if !namePattern s.id then .error "invalid step id"
    else if (positions.get s.id).isSome then .error "duplicate step id"
    else do
      validateStep c s
      validateSteps c (i+1) (positions.set s.id i) rest

/-- An edge is absent or names a later step. -/
def laterEdge (positions : Table String ℕ) (i : ℕ) (edge : String) : Bool :=
  edge = "" || (positions.get edge).any (fun j => i < j)

def validateEdges (positions : Table String ℕ) : ℕ → List Step → Except String Unit
  | _,[] => .ok ()
  | i,s :: rest =>
    if !laterEdge positions i s.next ∨ !laterEdge positions i s.otherwise then
      .error "edges must name a later step; cycles are forbidden"
    else if s.kind ≠ .branch ∧ s.otherwise ≠ "" then .error "otherwise is only valid for branches"
    else validateEdges positions (i+1) rest

/-! The flow of outputs: what every path to a step has defined. -/

/-- The outputs that are defined, with their types. -/
abbrev Env := Table String ValueType

namespace Program

/-- Where a step leads by its next edge. -/
def next (p : Program) (i : ℕ) (s : Step) : ℕ := if s.next = "" then i+1 else p.position s.next

/-- Where a step leads. -/
def successors (p : Program) (i : ℕ) (s : Step) : List ℕ :=
  (if p.next i s < p.spec.steps.length then [p.next i s] else []) ++
    (if s.kind = .branch ∧ p.position s.otherwise ≠ p.next i s then [p.position s.otherwise]
      else [])

/-- The steps that lead to a step, in order. -/
def predecessors (p : Program) (j : ℕ) : List ℕ :=
  (p.spec.steps.zipIdx.filter (fun e => j ∈ p.successors e.2 e.1)).map Prod.snd

end Program

/-- Every output has one definition, and only money has a currency. -/
def validateDefinitions (seen : List String) : List Step → Except String Unit
  | [] => .ok ()
  | s :: rest =>
    if s.kind = .extract then
      if s.output ∈ seen then .error s!"output {repr s.output} has more than one definition"
      else if s.outputType ≠ .money ∧ s.currency ≠ "" then
        .error "only money outputs can declare currency"
      else validateDefinitions (s.output :: seen) rest
    else validateDefinitions seen rest

/-- What is left of the definitions at the first predecessor at all the others. -/
def meet (defs : List Env) : List ℕ → Env
  | [] => Table.empty
  | first :: rest =>
    ((defs[first]?).getD Table.empty).filter (fun e =>
      rest.all (fun pred => ((defs[pred]?).getD Table.empty).get e.1 = some e.2))

/-- The type of a reference where the given outputs are defined. -/
def refType (params : List Parameter) (available : Env) (id : String) (r : Ref) :
    Except String ValueType :=
  match r.source with
  | .input => .ok ((parameterType params r.key).getD .absent)
  | .literal => .ok r.literal.type
  | .output => match available.get r.key with
    | none => .error s!"step {id} uses output {repr r.key} before it is defined on every path"
    | some t => .ok t
  | .other _ => .error "invalid reference source"

/-- What a step reads is available and of the type it needs. -/
def validateReads (params : List Parameter) (available : Env) (s : Step) : Except String Unit :=
  match s.kind with
  | .setValue | .typeText => do
    let _ ← refType params available s.id s.input
    return ()
  | .scroll => do
    let t ← refType params available s.id s.input
    if t ≠ .integer then .error "scroll input must be an integer"
    else if s.input.source = .literal ∧
        (s.input.literal.integer = 0 ∨ s.input.literal.integer < -20 ∨
          s.input.literal.integer > 20) then
      .error "scroll input must be -20..-1 or 1..20"
    else return ()
  | .assert | .branch | .wait =>
    if s.predicate.op = .exists then .ok ()
    else do
      let t ← refType params available s.id s.predicate.expected
      if s.predicate.op = .contains ∧ t ≠ .string then
        .error "contains requires a string expectation"
      else return ()
  | _ => .ok ()

/-- What is defined after a step. -/
def defines (available : Env) (s : Step) : Env :=
  if s.kind = .extract then available.set s.output s.outputType else available

/-- The definitions after each step, in one pass. -/
def definitions (p : Program) : ℕ → List Env → List Step → Except String (List Env)
  | _,defs,[] => .ok defs
  | i,defs,s :: rest =>
    if 0 < i ∧ p.predecessors i = [] then .error s!"step {s.id} is unreachable"
    else do
      let available := if i = 0 then Table.empty else meet defs (p.predecessors i)
      validateReads p.spec.parameters available s
      definitions p (i+1) (defs ++ [defines available s]) rest

/-- The outputs that a conclude step must have. -/
def requiredOutputs (decls : List OutputDecl) (outcome : OutcomeDef) : List String :=
  if outcome.kind = .success ∧ decls ≠ [] then decls.map OutputDecl.name else outcome.outputs

def validateRequired (decls : List OutputDecl) (id : String) (available : Env) :
    List String → Except String Unit
  | [] => .ok ()
  | name :: rest => match available.get name with
    | none => .error s!"conclude {id} missing output {repr name} on its path"
    | some t => match decls.find? (fun d => d.name = name) with
      | none => validateRequired decls id available rest
      | some decl =>
        if decl.type ≠ t then
          .error s!"conclude {id} output {repr name} has type {t.name}, declared {decl.type.name}"
        else validateRequired decls id available rest

/-- The conclude steps have what their outcomes need; the count is of those that succeed. -/
def validateConcludes (c : Artifact) (defs : List Env) : ℕ → ℕ → List Step → Except String ℕ
  | _,successPaths,[] => .ok successPaths
  | i,successPaths,s :: rest =>
    if s.kind ≠ .conclude then validateConcludes c defs (i+1) successPaths rest
    else match c.outcomes.find? (fun o => o.id = s.outcome) with
      | none => .error s!"conclude step {s.id} references missing outcome"
      | some outcome => do
        validateRequired c.outputs s.id ((defs[i]?).getD Table.empty)
          (requiredOutputs c.outputs outcome)
        validateConcludes c defs (i+1) (if outcome.kind = .success then successPaths+1
          else successPaths) rest

def validateFlow (c : Artifact) (p : Program) : Except String Unit := do
  validateDefinitions [] p.spec.steps
  let defs ← definitions p 0 [] p.spec.steps
  if c.outputs = [] ∧ c.outcomes = [] then return ()
  else do
    let successPaths ← validateConcludes c defs 0 0 p.spec.steps
    if c.outputs ≠ [] ∧ successPaths = 0 then
      .error "declared outputs require a success conclude path"
    else return ()

/-- The last step is one that observes where the run ended. -/
def finishesObserved (steps : List Step) : Bool :=
  steps.getLast?.any (fun s => s.kind = .assert || s.kind = .extract || s.kind = .wait ||
    s.kind = .conclude)

/-- Stop at what a capability must not have. -/
def refuse (bad : Prop) [Decidable bad] (reason : String) : Except String Unit :=
  if bad then .error reason else .ok ()

/-- The checks of the compiler but for that of the flow; the digest is that of the capability's
bytes. -/
def compileChecked (validateAnchor : VisualAnchor → Except String Unit) (digest : String)
    (c : Artifact) :
    Except String Program := do
  refuse (c.schemaVersion ≠ 1) "unsupported capability schema"
  refuse (!namePattern c.id ∨ c.revision = "" ∨ c.application = "")
    "capability requires valid id, revision and application"
  refuse (c.steps.length = 0 ∨ c.steps.length > 128 ∨ c.targets.entries.length = 0 ∨
    c.targets.entries.length > 128) "capability requires 1..128 steps and targets"
  validateLimits c.limits
  refuse (c.parameters.length > 128) "capability supports at most 128 parameters"
  validateParameters [] c.parameters
  validateOutputs [] c.outputs
  validateOutcomes c.outputs [] c.outcomes
  validateTargets validateAnchor c.targets.entries
  refuse (c.recoveries.length > 64) "capability supports at most 64 recoveries"
  validateRecoveries c.parameters c.targets [] c.recoveries
  let positions ← validateSteps c 0 Table.empty c.steps
  validateEdges positions 0 c.steps
  refuse (!finishesObserved c.steps) "capability must finish with an observed checkpoint"
  return ⟨digest,c.toCapability,positions⟩

/-- Compile a decoded capability. -/
def compile (validateAnchor : VisualAnchor → Except String Unit) (digest : String) (c : Artifact) :
    Except String Program := do
  let p ← compileChecked validateAnchor digest c
  validateFlow c p
  return p

end Manvi.Workflow
