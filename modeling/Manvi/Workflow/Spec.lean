import Manvi.Encoding.Table

/-! Capabilities and what a run reads of them: typed values, selectors, steps and limits. -/
namespace Manvi.Workflow
open Manvi.Encoding

inductive ValueType where
  | absent
  | string
  | integer
  | boolean
  | money
  | other (name : String)
  deriving Repr, DecidableEq

def ValueType.name : ValueType → String
  | .absent => ""
  | .string => "string"
  | .integer => "integer"
  | .boolean => "boolean"
  | .money => "money"
  | .other name => name

structure Value where
  type : ValueType
  text : String
  integer : ℤ
  boolean : Bool
  currency : String
  deriving Repr, DecidableEq

/-- Three letters from A to Z. -/
def currencyPattern (s : String) : Bool :=
  s.toList.length = 3 && s.toList.all (fun c => 'A' ≤ c && c ≤ 'Z')

namespace Value

def zero : Value := ⟨.absent,"",0,false,""⟩

/-- A value carries what its type has and nothing else. -/
def validate (v : Value) : Except String Unit :=
  match v.type with
  | .string =>
    if v.text.utf8ByteSize > 65536 ∨ v.integer ≠ 0 ∨ v.boolean ∨ v.currency ≠ "" then
      .error "invalid string value"
    else .ok ()
  | .integer =>
    if v.text ≠ "" ∨ v.boolean then .error "invalid integer value"
    else if v.currency ≠ "" then .error "integer cannot have currency"
    else .ok ()
  | .money =>
    if v.text ≠ "" ∨ v.boolean then .error "invalid integer value"
    else if !currencyPattern v.currency then .error "money requires an uppercase ISO currency code"
    else .ok ()
  | .boolean =>
    if v.text ≠ "" ∨ v.integer ≠ 0 ∨ v.currency ≠ "" then .error "invalid boolean value" else .ok ()
  | t => .error s!"unsupported value type {repr t.name}"

end Value

structure Parameter where
  name : String
  type : ValueType
  sensitive : Bool
  deriving Repr, DecidableEq

inductive RefSource where
  | literal
  | input
  | output
  | other (name : String)
  deriving Repr, DecidableEq

structure Ref where
  source : RefSource
  key : String
  literal : Value
  deriving Repr, DecidableEq

structure PixelRect where
  x : ℕ
  y : ℕ
  width : ℕ
  height : ℕ
  deriving Repr, DecidableEq

/-- Whether a rectangle lies in a frame. -/
def PixelRect.inside (r : PixelRect) (w h : ℕ) : Bool :=
  0 < r.width && 0 < r.height && r.x+r.width ≤ w && r.y+r.height ≤ h

/-- What a match of an image must agree with. -/
structure VisualAnchor where
  sha256 : String
  width : ℕ
  height : ℕ
  frameWidth : ℕ
  frameHeight : ℕ
  deriving Repr, DecidableEq

structure VisualMatch where
  targetID : String
  anchorSHA256 : String
  frameSHA256 : String
  matched : PixelRect
  deriving Repr, DecidableEq

/-- A selector by itself, or a ladder of strategies tried in turn. -/
inductive Selector where
  | mk (visual : Option VisualAnchor) (role name identifier ancestor : String)
      (strategies : List Selector) (rationale stability : String)
  deriving Repr

namespace Selector

def zero : Selector := .mk none "" "" "" "" [] "" ""

def visual : Selector → Option VisualAnchor
  | .mk v _ _ _ _ _ _ _ => v

/-- The strategies when there are any, else the flat selector as the only rung. -/
def ladder : Selector → List Selector
  | .mk v role name identifier ancestor [] _ _ => [.mk v role name identifier ancestor [] "" ""]
  | .mk _ _ _ _ _ strategies _ _ => strategies

end Selector

inductive Op where
  | exists
  | equals
  | notEquals
  | contains
  | other (name : String)
  deriving Repr, DecidableEq

structure Predicate where
  op : Op
  expected : Ref
  deriving Repr, DecidableEq

inductive OutcomeKind where
  | success
  | business
  | other (name : String)
  deriving Repr, DecidableEq

structure OutcomeDef where
  id : String
  kind : OutcomeKind
  outputs : List String
  deriving Repr, DecidableEq

inductive StepKind where
  | press
  | click
  | setValue
  | typeText
  | scroll
  | extract
  | assert
  | branch
  | wait
  | conclude
  | other (name : String)
  deriving Repr, DecidableEq

inductive Effect where
  | none
  | read
  | change
  | other (name : String)
  deriving Repr, DecidableEq

structure RecoveryWhen where
  target : String
  predicate : Predicate
  deriving Repr, DecidableEq

structure RecoveryAction where
  kind : StepKind
  target : String
  deriving Repr, DecidableEq

structure Recovery where
  id : String
  when : RecoveryWhen
  action : RecoveryAction
  max : ℤ
  deriving Repr, DecidableEq

structure Step where
  id : String
  kind : StepKind
  target : String
  effect : Effect
  input : Ref
  predicate : Predicate
  output : String
  outputType : ValueType
  currency : String
  outcome : String
  next : String
  otherwise : String
  deriving Repr, DecidableEq

def Ref.zero : Ref := ⟨.other "","",Value.zero⟩

def Predicate.zero : Predicate := ⟨.other "",Ref.zero⟩

structure Limits where
  maxActions : ℤ
  activeSeconds : ℤ
  observationAttempts : ℤ
  interventionSeconds : ℤ
  deriving Repr, DecidableEq

def defaultLimits : Limits := ⟨40,300,3,600⟩

/-- What a run reads of a capability. -/
structure Capability where
  parameters : List Parameter
  targets : Table String Selector
  outcomes : List OutcomeDef
  recoveries : List Recovery
  steps : List Step
  limits : Limits

/-- A compiled capability with its digest and the positions of its steps. -/
structure Program where
  digest : String
  spec : Capability
  positions : Table String ℕ

namespace Program

/-- A target by its name; a missing one is the zero selector. -/
def target (p : Program) (name : String) : Selector := (p.spec.targets.get name).getD Selector.zero

/-- The position of a step; a missing one reads as zero. -/
def position (p : Program) (name : String) : ℕ := (p.positions.get name).getD 0

/-- Inputs match the parameters in number, names and types. -/
def validateInputs (p : Program) (inputs : Table String Value) : Except String Unit := do
  if inputs.entries.length ≠ p.spec.parameters.length then
    throw "inputs do not exactly match parameters"
  p.spec.parameters.forM (fun parameter =>
    match inputs.get parameter.name with
    | none => throw s!"parameter {parameter.name} has missing or wrong type"
    | some v =>
      if v.type ≠ parameter.type then throw s!"parameter {parameter.name} has missing or wrong type"
      else match v.validate with
        | .error e => throw s!"parameter {parameter.name}: {e}"
        | .ok _ => pure ())

end Program

/-- The value a reference names. -/
def resolve (r : Ref) (inputs outputs : Table String Value) : Except String Value :=
  match r.source with
  | .literal => do
    r.literal.validate
    return r.literal
  | .input => match inputs.get r.key with
    | none => .error "input binding unavailable"
    | some v => .ok v
  | .output => match outputs.get r.key with
    | none => .error "output binding unavailable"
    | some v => .ok v
  | .other _ => .error "invalid reference"

def compare (actual : Value) (op : Op) (expected : Value) : Bool :=
  match op with
  | .exists => actual.type ≠ .absent
  | .equals => actual.type = expected.type && actual = expected
  | .notEquals => actual.type = expected.type && actual ≠ expected
  | .contains => actual.type = expected.type && actual.type = .string &&
      expected.text.toList <:+: actual.text.toList
  | .other _ => false

end Manvi.Workflow
