import Manvi.Encoding.Float64
import Manvi.Encoding.Sha256
import Manvi.Session.Projection

/-! The check, made before every request, that what is sent to a model is in the log. -/
namespace Manvi.Encoding
namespace Json

mutual
/-- Maps keep the last of several members with one name, and list their members by name. -/
def normal : Json → Json
  | .arr items => .arr (normalItems items)
  | .obj members => .obj (sortMembers (dedup (normalMembers members)))
  | j => j

def normalItems : List Json → List Json
  | [] => []
  | x :: xs => normal x :: normalItems xs

def normalMembers : List (String × Json) → List (String × Json)
  | [] => []
  | (k,v) :: ms => (k,normal v) :: normalMembers ms
end

mutual
/-- Whether every number of a document is within the range of a double. -/
def inRange : Json → Bool
  | .num n => n.float64.isSome
  | .arr items => inRangeItems items
  | .obj members => inRangeMembers members
  | _ => true

def inRangeItems : List Json → Bool
  | [] => true
  | x :: xs => inRange x && inRangeItems xs

def inRangeMembers : List (String × Json) → Bool
  | [] => true
  | (_,v) :: ms => inRange v && inRangeMembers ms
end

mutual
/-- Write every number as its double. -/
def refloat : Json → Json
  | .num n => .num (n.float64.getD n)
  | .arr items => .arr (refloatItems items)
  | .obj members => .obj (refloatMembers members)
  | j => j

def refloatItems : List Json → List Json
  | [] => []
  | x :: xs => refloat x :: refloatItems xs

def refloatMembers : List (String × Json) → List (String × Json)
  | [] => []
  | (k,v) :: ms => (k,refloat v) :: refloatMembers ms
end

end Json
end Manvi.Encoding

namespace Manvi.Session
open Manvi.Encoding Manvi.LLM

/-- Re-encode arguments so that key order cannot make identical ones differ. What does not decode
stays as it is. -/
def canonical (raw : RawMessage) : RawMessage :=
  if raw.isEmpty then []
  else match Json.parse raw with
    | none => raw
    | some j => if j.inRange then Json.encode (Json.refloat j.normal) else raw

def hexByte (b : UInt8) : List Char := [Json.hexDigit (b.toNat/16),Json.hexDigit (b.toNat%16)]

/-- A list of strings as json.Marshal writes it; a nil one is null. -/
def encodeStrings : List (List Char) → List Char
  | [] => Json.encode .null
  | s :: ss => Json.encode (.arr ((s :: ss).map (fun s => .str (String.ofList s))))

def boolText (b : Bool) : List Char := if b then "true".toList else "false".toList

def callText (id : CallID) (name : String) (arguments : RawMessage) : List Char :=
  "tool_call:".toList ++ (id.toList ++ ':' :: (name.toList ++ ':' :: canonical arguments))

def resultText (id : CallID) (isError : Bool) (content : List (List Char)) : List Char :=
  "tool_result:".toList ++ (id.toList ++ ':' :: (boolText isError ++ ':' :: encodeStrings content))

def imageText (mediaType : String) (data : List UInt8) : List Char :=
  "image:".toList ++ (mediaType.toList ++ ':' :: (sha256 data).flatMap hexByte)

mutual
/-- The comparable text of a block; reasoning has none. -/
def visibleBlock : ContentBlock → List (List Char)
  | .text text => ["text:".toList ++ text.toList]
  | .reasoning _ _ _ => []
  | .image mediaType data => [imageText mediaType data]
  | .toolCall id name arguments => [callText id name arguments]
  | .toolResult id content isError => [resultText id isError (visibleBlocks content)]

/-- A message's content as comparable texts. -/
def visibleBlocks : List ContentBlock → List (List Char)
  | [] => []
  | b :: bs => visibleBlock b ++ visibleBlocks bs
end

section compare
variable (images : String → List UInt8 → String → List UInt8 → Bool)
  (calls : CallID → String → RawMessage → CallID → String → RawMessage → Bool)

mutual
/-- Compare two blocks by what a model reads, given how images and calls compare. -/
def matchBlock : ContentBlock → ContentBlock → Bool
  | .text a,.text b => a = b
  | .image m d,.image m' d' => images m d m' d'
  | .toolCall id name args,.toolCall id' name' args' => calls id name args id' name' args'
  | .toolResult id content isError,.toolResult id' content' isError' =>
    id = id' && isError = isError' && matchBlocks content content'
  | _,_ => false

/-- Compare two contents block by block, passing over reasoning on both sides. -/
def matchBlocks : List ContentBlock → List ContentBlock → Bool
  | [],sent => (sent.dropWhile ContentBlock.isReasoning).isEmpty
  | b :: bs,sent =>
    if b.isReasoning then matchBlocks bs sent
    else match sent.dropWhile ContentBlock.isReasoning with
      | [] => false
      | s :: rest => matchBlock b s && matchBlocks bs rest
end

end compare

/-- The comparison without rendering, which answers true only where the rendered texts agree. -/
def equalVisible : List ContentBlock → List ContentBlock → Bool :=
  matchBlocks (fun m d m' d' => m = m' && d = d')
    (fun id name args id' name' args' =>
      id = id' && name = name' && (args = args' || canonical args = canonical args'))

/-- How a logged and a sent message differ. -/
inductive Divergence where
  | role (logged sent : Role)
  | count (logged sent : ℕ)
  | block (index : ℕ) (logged sent : List Char)

/-- The first place where two lists of texts differ. -/
def firstDifference : ℕ → List (List Char) → List (List Char) → Option Divergence
  | i,l :: ls,s :: ss => if l = s then firstDifference (i+1) ls ss else some (.block i l s)
  | _,_,_ => none

/-- Compare what a model would read, ignoring provenance. -/
def sameVisibleContent (logged sent : Message) : Option Divergence :=
  if logged.role = sent.role ∧ equalVisible logged.content sent.content then none
  else if logged.role ≠ sent.role then some (.role logged.role sent.role)
  else
    let l := visibleBlocks logged.content
    let s := visibleBlocks sent.content
    if l.length ≠ s.length then some (.count l.length s.length) else firstDifference 0 l s

/-- A sent message that no logged one matches, with the last difference found. -/
structure InvariantError where
  messageIndex : ℕ
  detail : Option Divergence
  injected : Message

/-- Advance through the projection to the first message that matches; what is left of it. -/
def findLogged (sent : Message) : Option Divergence → List Message →
    Except (Option Divergence) (List Message)
  | last,[] => .error last
  | _,d :: derived => match sameVisibleContent d sent with
    | none => .ok derived
    | some e => findLogged sent (some e) derived

def checkVisible : ℕ → List Message → List Message → Except InvariantError Unit
  | _,_,[] => .ok ()
  | i,derived,sent :: request => match findLogged sent none derived with
    | .ok rest => checkVisible (i+1) rest request
    | .error last => .error ⟨i,last,sent⟩

inductive VisibleError where
  | unverified (reason : String)
  | violated (e : InvariantError)

/-- Check that every message about to be sent is in the log's projection, in order. -/
def assertModelVisible (log : Log) (request : List Message) : Except VisibleError Unit :=
  match log.projected with
  | .error reason => .error (.unverified reason)
  | .ok (derived,_) => match checkVisible 0 derived request with
    | .ok _ => .ok ()
    | .error e => .error (.violated e)

end Manvi.Session
