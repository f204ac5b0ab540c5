import Manvi.Encoding.Table
import Manvi.Encoding.JsonText
import Manvi.Session.Visible

/-! The desktop contracts shared by the broker and its native helpers: requests and responses,
observed trees and the selectors that name one of their elements, and the action an approval is
bound to. -/
namespace Manvi.Desktop
open Manvi.Encoding

/-- The bound of a text, in bytes. -/
def maxTextBytes : ℕ := 8192

/-- How far a selector looks for a named ancestor. -/
def maxDepth : ℕ := 40

inductive Delivery where
  | notSent
  | sent
  | unknown
  deriving Repr, DecidableEq

structure DesktopError where
  code : String
  message : String
  delivery : Delivery
  deriving Repr, DecidableEq

def err (code message : String) : DesktopError := ⟨code,message,.notSent⟩

def DesktopError.uncertain (e : DesktopError) : DesktopError := { e with delivery := .unknown }

/-- The operations a request names. -/
inductive Op where
  | probe
  | attach
  | pause
  | detach
  | focus
  | observe
  | resolve
  | resolveTarget
  | resume
  | approve
  | act
  | humanAct
  | other (name : String)
  deriving Repr, DecidableEq

/-- The two operations that hand control over, at any time. -/
def Op.interrupts : Op → Bool
  | .pause | .detach => true
  | _ => false

/-- The two operations that send input to an element. -/
def Op.acts : Op → Bool
  | .act | .humanAct => true
  | _ => false

structure Request where
  id : String
  op : Op
  sessionID : Option String
  runID : Option String
  epoch : Option ℕ
  payload : Json

structure Response where
  id : String
  ok : Bool
  result : Option Json
  error : Option DesktopError

namespace Response

def success (id : String) (result : Json) : Response := ⟨id,true,some result,none⟩

def failure (id : String) (e : DesktopError) : Response := ⟨id,false,none,some e⟩

end Response

/-- A member of an object by its exact name; of a repeated one the last counts. -/
def get (v : Json) (key : String) : Option Json :=
  match v with
  | .obj members => ((members.filter (fun m => m.1 = key)).getLast?).map Prod.snd
  | _ => none

/-- An element of an observed tree. What no broker decision reads is kept as it was sent. -/
structure Node where
  id : String
  role : String
  name : String
  identifier : Option String
  parent : Option String
  rest : Json

structure Observation where
  observationID : String
  epoch : ℕ
  capturedAtMS : ℕ
  window : Json
  nodes : List Node
  screenshot : Json
  complete : Bool
  inputStamp : Option Json
  rest : Json

structure Selector where
  role : Option String
  name : Option String
  identifier : Option String
  ancestorName : Option String
  visual : Option Json

/-- A place on the screen that looks like an anchor. -/
structure VisualMatch where
  targetID : String
  frameSHA256 : String
  rest : Json

inductive ResolvedTarget where
  | semantic (node : Node)
  | visual (m : VisualMatch)

structure Attach where
  focus : Bool
  readOnlyTargets : List Selector
  rest : Json

inductive ActionKind where
  | press
  | setValue
  | typeText
  | click
  | scroll
  deriving Repr, DecidableEq

inductive Effect where
  | read
  | change
  deriving Repr, DecidableEq

/-- An action on a target. Coordinates are the bits of a double. -/
structure Action where
  actionID : String
  observationID : String
  targetID : String
  kind : ActionKind
  text : Option String
  x : Option UInt64
  y : Option UInt64
  scrollY : Option ℤ
  effect : Effect
  approvalID : Option String
  deriving Repr, DecidableEq

/-- What the broker takes from serde and from the parts of the contracts it only passes on. -/
structure Codec where
  decodeAttach : Json → Except DesktopError Attach
  decodeAction : Json → Except DesktopError Action
  decodeSelection : Json → Except DesktopError (String × Selector)
  decodeResume : Json → Except DesktopError String
  decodeSelector : Json → Except DesktopError Selector
  decodeWindow : Json → Except DesktopError Json
  decodeObservation : Json → Except DesktopError Observation
  decodeTarget : Json → Except DesktopError ResolvedTarget
  encodeNode : Node → Json
  encodeObservation : Observation → Except DesktopError Json
  encodeVisual : VisualMatch → Except DesktopError Json
  validateAnchor : Json → Except DesktopError Unit
  stateFingerprint : List Node → Except DesktopError String
  formatFinite : UInt64 → Number
  tooLarge : Response → Bool

/-- The White_Space characters of Unicode. -/
def isWhitespace (c : Char) : Bool :=
  let n := c.toNat
  (9 ≤ n && n ≤ 13) || n == 32 || n == 0x85 || n == 0xA0 || n == 0x1680 || (0x2000 ≤ n &&
    n ≤ 0x200A) ||
    n == 0x2028 || n == 0x2029 || n == 0x202F || n == 0x205F || n == 0x3000

def unboundedText (v : String) : Bool :=
  v.toList.all isWhitespace || maxTextBytes < v.utf8ByteSize || v.toList.contains '\x00'

namespace Selector

def validate (codec : Codec) (s : Selector) : Except DesktopError Unit :=
  match s.visual with
  | some anchor =>
    if [s.role,s.name,s.identifier,s.ancestorName].any Option.isSome then
      .error (err "invalid_selector" "Visual and semantic selectors are mutually exclusive")
    else codec.validateAnchor anchor
  | none =>
    if s.name.isNone && s.identifier.isNone then
      .error (err "invalid_selector" "An exact name or identifier is required")
    else if ([s.role,s.name,s.identifier,s.ancestorName].filterMap id).any unboundedText then
      .error (err "invalid_selector" "Selector fields must be nonempty and bounded")
    else .ok ()

/-- Whether an ancestor bears a name, within a number of generations. -/
def climbs (nodes : List Node) (name : String) : ℕ → Option String → Bool
  | 0,_ => false
  | _+1,none => false
  | n+1,some id =>
    match nodes.find? (fun a => a.id = id) with
    | none => false
    | some a => if a.name = name then true else climbs nodes name n a.parent

def selects (nodes : List Node) (s : Selector) (node : Node) : Bool :=
  if s.role.any (fun v => node.role ≠ v) || s.name.any (fun v => node.name ≠ v) ||
      s.identifier.any (fun v => node.identifier ≠ some v) then false
  else match s.ancestorName with
    | some name => climbs nodes name maxDepth node.parent
    | none => true

end Selector

/-- The one element of a tree that a selector names. -/
def resolve (codec : Codec) (nodes : List Node) (s : Selector) : Except DesktopError Node :=
  match s.validate codec with
  | .error e => .error e
  | .ok _ =>
    if s.visual.isSome then
      .error (err "visual_target_required" "Visual anchors require tagged target resolution")
    else match nodes.filter (s.selects nodes) with
      | [] => .error (err "target_missing" "No element matches the selector")
      | [node] => .ok node
      | _ => .error (err "target_ambiguous" "More than one element matches the selector")

/-- A selector resolves to an element exactly when it is a valid semantic selector and the element
is the only one it matches. -/
theorem resolve_ok_iff (codec : Codec) (nodes : List Node) (s : Selector) (node : Node) :
    resolve codec nodes s = .ok node ↔
      s.validate codec = .ok () ∧ s.visual = none ∧ nodes.filter (s.selects nodes) = [node] := by
  unfold resolve
  cases hv : s.validate codec with
  | error e => simp
  | ok u =>
    cases hs : s.visual with
    | some anchor => simp
    | none =>
      simp only [Option.isSome_none,Bool.false_eq_true,if_false,true_and]
      constructor
      · intro h
        split at h
        · cases h
        · next n hn =>
          injection h with h
          rw [hn,h]
        · cases h
      · intro h
        rw [h]

/-- A double that is neither infinite nor a NaN. -/
def isFinite (bits : UInt64) : Bool := (bits >>> 52) &&& 0x7ff != 0x7ff

namespace Action

def validate (a : Action) : Except DesktopError Unit :=
  if [a.actionID,a.observationID,a.targetID].any (fun s => s = "" || 160 < s.utf8ByteSize) then
    .error (err "invalid_action" "Action and target identities must be nonempty and bounded")
  else if a.text.any (fun s => maxTextBytes < s.utf8ByteSize || s.toList.contains '\x00') then
    .error (err "invalid_action" "Text exceeds limit or contains a NUL")
  else if (a.kind = .setValue ∨ a.kind = .typeText) ∧ a.text.isNone then
    .error (err "invalid_action" "Text is required")
  else if a.x.any (fun v => !isFinite v) || a.y.any (fun v => !isFinite v) then
    .error (err "invalid_action" "Coordinates must be finite")
  else if a.kind = .scroll ∧ ¬ a.scrollY.any (fun v => -20 ≤ v ∧ v ≤ 20 ∧ v ≠ 0) then
    .error (err "invalid_action" "Scroll must be between -20 and 20, excluding zero")
  else .ok ()

/-- An action without the approval it names. -/
def bare (a : Action) : Action := { a with approvalID := none }

end Action

/-- A character inside a string as serde_json writes it. -/
def quoteChar (c : Char) : List Char :=
  if c.toNat < 32 ∨ c = '"' ∨ c = '\\' then Json.encodeChar c else [c]

def quote (s : String) : List Char := '"' :: (s.toList.flatMap quoteChar ++ ['"'])

def optional {α : Type} (encode : α → List Char) : Option α → List Char
  | none => "null".toList
  | some a => encode a

def ActionKind.name : ActionKind → String
  | .press => "press"
  | .setValue => "set_value"
  | .typeText => "type_text"
  | .click => "click"
  | .scroll => "scroll"

def Effect.name : Effect → String
  | .read => "read"
  | .change => "change"

/-- A named member of a JSON object, after the separator that comes before it. -/
def member (separator : Char) (key : String) (value : List Char) : List Char :=
  separator :: (quote key ++ ':' :: value)

def integer (n : ℤ) : List Char := Json.encodeNumber ⟨n < 0,n.natAbs,[],none⟩

/-- The text of an action, its approval left out. -/
def Action.encode (codec : Codec) (a : Action) : List Char :=
  let number := optional (fun v => Json.encodeNumber (codec.formatFinite v))
  member '\x7b' "action_id" (quote a.actionID) ++
  (member ',' "observation_id" (quote a.observationID) ++
  (member ',' "target_id" (quote a.targetID) ++
  (member ',' "kind" (quote a.kind.name) ++
  (member ',' "text" (optional quote a.text) ++
  (member ',' "x" (number a.x) ++
  (member ',' "y" (number a.y) ++
  (member ',' "scroll_y" (optional integer a.scrollY) ++
  (member ',' "effect" (quote a.effect.name) ++
  (member ',' "approval_id" "null".toList ++ ['\x7d'])))))))))

/-- An action as a session, a run and an epoch use it. -/
structure Use where
  session : String
  run : String
  epoch : ℕ
  action : Action
  deriving Repr, DecidableEq

/-- The bytes a binding is the digest of. -/
def Use.bytes (codec : Codec) (u : Use) : List UInt8 :=
  ('[' :: (quote u.session ++ ',' :: (quote u.run ++ ',' :: (integer u.epoch ++
    ',' :: (u.action.encode codec ++ [']']))))).flatMap String.utf8EncodeChar

def sha256Hex (bytes : List UInt8) : String :=
  String.ofList ((sha256 bytes).flatMap Session.hexByte)

def Use.binding (codec : Codec) (u : Use) : String := sha256Hex (u.bytes codec)

end Manvi.Desktop
