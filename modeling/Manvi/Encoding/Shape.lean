import Manvi.Encoding.Json
import Manvi.Encoding.Keyed

/-! Documents decoded into Go types: what a type takes, the value that comes of it, and the document
of a value. -/
namespace Manvi.Encoding

/-- A type that a document is decoded into. Structs are known by a number. -/
inductive Shape where
  | str
  | bool
  | int (low high : ℤ)
  | float
  | list (elem : Shape)
  | map (elem : Shape)
  | ptr (elem : Shape)
  | struct (id : ℕ)
  deriving Repr, DecidableEq

/-- A field of a struct with its tag. -/
structure Field where
  name : String
  omitempty : Bool
  shape : Shape
  deriving Repr, DecidableEq

/-- The struct types. -/
abbrev Types := ℕ → List Field

/-- A value. A struct has the fields that are not zero, a map its keys in order. -/
inductive Val where
  | nil
  | ptr (v : Val)
  | str (s : String)
  | bool (b : Bool)
  | int (n : ℤ)
  | float (bits : UInt64)
  | list (vs : List Val)
  | map (es : List (String × Val))
  | struct (fs : List (ℕ × Val))
  deriving Repr

/-- How doubles are read and written: what was read is read again from what is written for it. -/
structure FloatCodec where
  parse : Number → Option UInt64
  format : UInt64 → Number
  parse_zero : parse ⟨false,0,[],none⟩ = some 0
  parse_format : ∀ n x, parse n = some x → parse (format x) = some x

/-- How names are folded when a field is looked up. -/
abbrev FoldName := String → String

namespace Val

def isZero : Val → Bool
  | .nil => true
  | .str s => s = ""
  | .bool b => !b
  | .int n => n = 0
  | .float x => x = 0
  | .struct fs => fs.isEmpty
  | .list _ | .map _ | .ptr _ => false

/-- What omitempty leaves out. -/
def isEmpty : Val → Bool
  | .nil => true
  | .str s => s = ""
  | .bool b => !b
  | .int n => n = 0
  | .float x => x = 0 || x = 0x8000000000000000
  | .list vs => vs.isEmpty
  | .map es => es.isEmpty
  | .struct _ | .ptr _ => false

end Val

namespace Shape

/-- The pointers around a type. -/
def ptrs : Shape → ℕ
  | .ptr s => s.ptrs+1
  | _ => 0

/-- The type that is pointed to in the end. -/
def base : Shape → Shape
  | .ptr s => s.base
  | s => s

def zero : Shape → Val
  | .str => .str ""
  | .bool => .bool false
  | .int _ _ => .int 0
  | .float => .float 0
  | .list _ | .map _ | .ptr _ => .nil
  | .struct _ => .struct []

end Shape

/-- As many pointers to a value. -/
def pointed : ℕ → Val → Val
  | 0,v => v
  | n+1,v => .ptr (pointed n v)

/-- The field that a member is stored in: the one of its name, or the first whose name folds to the
same. -/
def resolve (fold : FoldName) (fields : List Field) (key : String) : Option ℕ :=
  (fields.findIdx? (fun f => f.name = key)).or (fields.findIdx? (fun f => fold f.name = fold key))

/-- An integer literal in a range; a type without negative numbers takes no sign. -/
def intLiteral (low high : ℤ) (n : Number) : Option Val :=
  let v : ℤ := if n.negative then -(n.whole : ℤ) else n.whole
  if n.fraction = [] ∧ n.exponent = none ∧ (n.negative = true → low < 0) ∧ low ≤ v ∧ v ≤ high then
    some (.int v) else none

/-- A struct of the fields that were stored. -/
def structOf (fs : List (ℕ × Val)) : Val := .struct ((keyed fs).filter (fun f => !f.2.isZero))

section decode
variable (fold : FoldName) (codec : FloatCodec) (types : Types)

mutual
/-- Decode a document into the zero value of a type. -/
def decode : Json → Shape → Option Val
  | .null,s => some s.zero
  | .bool b,s => match s.base with
    | .bool => some (pointed s.ptrs (.bool b))
    | _ => none
  | .num n,s => match s.base with
    | .int low high => (intLiteral low high n).map (pointed s.ptrs)
    | .float => (codec.parse n).map (fun x => pointed s.ptrs (.float x))
    | _ => none
  | .str t,s => match s.base with
    | .str => some (pointed s.ptrs (.str t))
    | _ => none
  | .arr items,s => match s.base with
    | .list e => (decodeItems items e).map (fun vs => pointed s.ptrs (.list vs))
    | _ => none
  | .obj members,s => match s.base with
    | .map e => (decodeEntries members e).map (fun es => pointed s.ptrs (.map (keyed es)))
    | .struct id => (decodeMembers members (types id)).map (fun fs => pointed s.ptrs (structOf fs))
    | _ => none

def decodeItems : List Json → Shape → Option (List Val)
  | [],_ => some []
  | j :: js,e => do
    let v ← decode j e
    let vs ← decodeItems js e
    return v :: vs

def decodeEntries : List (String × Json) → Shape → Option (List (String × Val))
  | [],_ => some []
  | (k,j) :: ms,e => do
    let v ← decode j e
    let es ← decodeEntries ms e
    return (k,v) :: es

/-- The members of a struct by the places of their fields; unknown ones are refused. -/
def decodeMembers : List (String × Json) → List Field → Option (List (ℕ × Val))
  | [],_ => some []
  | (k,j) :: ms,fields => do
    let i ← resolve fold fields k
    let f ← fields[i]?
    let v ← decode j f.shape
    let fs ← decodeMembers ms fields
    return (i,v) :: fs
end

end decode

section encode
variable (codec : FloatCodec) (types : Types)

/-- A field that is left out when it is zero; structs are never left out. -/
def Field.omits (f : Field) : Bool := f.omitempty && match f.shape with
  | .struct _ => false
  | _ => true

/-- The document of the zero value of a type; the fuel is for structs inside of structs. -/
def zeroJson : ℕ → Shape → Json
  | _,.str => .str ""
  | _,.bool => .bool false
  | _,.int _ _ => Json.ofInt 0
  | _,.float => .num (codec.format 0)
  | fuel+1,.struct id => .obj ((types id).filterMap (fun f => if f.omits then
    none else some (f.name,zeroJson fuel f.shape)))
  | _,_ => .null

/-- The members of a struct, from the documents of the fields that are not zero. -/
def members (fuel : ℕ) (fields : List Field) (js : List (ℕ × Json)) : List (String × Json) :=
  fields.zipIdx.filterMap (fun f => match js.find? (fun e => e.1 = f.2) with
    | some e => some (f.1.name,e.2)
    | none => if f.1.omits then none else some (f.1.name,zeroJson codec types fuel f.1.shape))

mutual
/-- Encode a value of a type. -/
def encode (fuel : ℕ) : Val → Shape → Json
  | .nil,_ => .null
  | .ptr v,.ptr s => encode fuel v s
  | .str t,_ => .str t
  | .bool b,_ => .bool b
  | .int n,_ => Json.ofInt n
  | .float x,_ => .num (codec.format x)
  | .list vs,.list e => .arr (encodeItems fuel vs e)
  | .map es,.map s => .obj (encodeEntries fuel es s)
  | .struct fs,.struct id =>
    .obj (members codec types fuel (types id) (encodeFields fuel fs (types id)))
  | _,_ => .null

def encodeItems (fuel : ℕ) : List Val → Shape → List Json
  | [],_ => []
  | v :: vs,e => encode fuel v e :: encodeItems fuel vs e

def encodeEntries (fuel : ℕ) : List (String × Val) → Shape → List (String × Json)
  | [],_ => []
  | (k,v) :: es,s => (k,encode fuel v s) :: encodeEntries fuel es s

def encodeFields (fuel : ℕ) : List (ℕ × Val) → List Field → List (ℕ × Json)
  | [],_ => []
  | (i,v) :: fs,fields => match fields[i]? with
    | some f =>
      if f.omitempty && v.isEmpty then encodeFields fuel fs fields
      else (i,encode fuel v f.shape) :: encodeFields fuel fs fields
    | none => encodeFields fuel fs fields
end

end encode
end Manvi.Encoding
