import Manvi.Encoding.Json

/-! The text of a JSON document: how encoding/json writes one and reads one back. -/
namespace Manvi.Encoding

/-- Raw JSON text. -/
abbrev RawMessage := List Char

namespace Json

def isSpace (c : Char) : Bool := c == ' ' || c == '\t' || c == '\n' || c == '\r'

def skipSpace : List Char → List Char
  | [] => []
  | c :: cs => if isSpace c then skipSpace cs else c :: cs

def digitChar (d : Fin 10) : Char := Char.ofNat (48+d.val)

def charDigit (c : Char) : Option (Fin 10) :=
  if h : 48 ≤ c.toNat ∧ c.toNat < 58 then some ⟨c.toNat-48,by omega⟩ else none

def digitsAux : ℕ → ℕ → List (Fin 10) → List (Fin 10)
  | 0,_,acc => acc
  | fuel+1,n,acc =>
    if n < 10 then Fin.ofNat 10 n :: acc else digitsAux fuel (n/10) (Fin.ofNat 10 n :: acc)

/-- Decimal digits, most significant first, without leading zeros. -/
def natDigits (n : ℕ) : List (Fin 10) := digitsAux (n+1) n []

def digitsValue (ds : List (Fin 10)) : ℕ := ds.foldl (fun acc d => 10*acc+d.val) 0

def hexDigit (n : ℕ) : Char := if n < 10 then Char.ofNat (48+n) else Char.ofNat (87+n)

def hexValue (c : Char) : Option ℕ :=
  let n := c.toNat
  if 48 ≤ n ∧ n < 58 then some (n-48)
  else if 97 ≤ n ∧ n < 103 then some (n-87)
  else if 65 ≤ n ∧ n < 71 then some (n-55)
  else none

/-- The four-digit escape of a code point of the basic plane. -/
def unicodeEscape (n : ℕ) : List Char :=
  ['\\','u',hexDigit (n/4096%16),hexDigit (n/256%16),hexDigit (n/16%16),hexDigit (n%16)]

/-- The characters json.Marshal never writes as themselves inside a string. -/
def escaped (c : Char) : Bool :=
  c.toNat < 32 || c == '"' || c == '\\' || c == '<' || c == '>' || c == '&' ||
    c.toNat == 0x2028 || c.toNat == 0x2029

def encodeChar (c : Char) : List Char :=
  if c = '"' then ['\\','"']
  else if c = '\\' then ['\\','\\']
  else if c = '\n' then ['\\','n']
  else if c = '\r' then ['\\','r']
  else if c = '\t' then ['\\','t']
  else if c.toNat = 8 then ['\\','b']
  else if c.toNat = 12 then ['\\','f']
  else if escaped c then unicodeEscape c.toNat
  else [c]

def encodeString (s : String) : List Char := '"' :: (s.toList.flatMap encodeChar ++ ['"'])

def encodeSign : Option Bool → List Char
  | none => []
  | some true => ['-']
  | some false => ['+']

def encodeExponent : Option Exponent → List Char
  | none => []
  | some e => (if e.upper then 'E' else 'e') ::
      (encodeSign e.sign ++ (e.lead :: e.rest).map digitChar)

def encodeFraction : List (Fin 10) → List Char
  | [] => []
  | d :: ds => '.' :: (d :: ds).map digitChar

def encodeMinus (negative : Bool) : List Char := if negative then ['-'] else []

def encodeNumber (n : Number) : List Char :=
  encodeMinus n.negative ++ ((natDigits n.whole).map digitChar ++
    (encodeFraction n.fraction ++ encodeExponent n.exponent))

mutual
/-- The compact encoding of a document, as json.Marshal writes it. -/
def encode : Json → List Char
  | .null => ['n','u','l','l']
  | .bool true => ['t','r','u','e']
  | .bool false => ['f','a','l','s','e']
  | .num n => encodeNumber n
  | .str s => encodeString s
  | .arr items => '[' :: encodeItems items
  | .obj members => '{' :: encodeMembers members

/-- The items of an array, with the closing bracket. -/
def encodeItems : List Json → List Char
  | [] => [']']
  | [x] => encode x ++ [']']
  | x :: y :: rest => encode x ++ ',' :: encodeItems (y :: rest)

/-- The members of an object, with the closing brace. -/
def encodeMembers : List (String × Json) → List Char
  | [] => ['}']
  | [(k,v)] => encodeString k ++ ':' :: (encode v ++ ['}'])
  | (k,v) :: m :: rest => encodeString k ++ ':' :: (encode v ++ ',' :: encodeMembers (m :: rest))
end

/-! Decoding. -/

def takeDigits : List Char → List (Fin 10) × List Char
  | [] => ([],[])
  | c :: cs => match charDigit c with
    | some d => let r := takeDigits cs; (d :: r.1,r.2)
    | none => ([],c :: cs)

def parseSign : List Char → Option Bool × List Char
  | '-' :: cs => (some true,cs)
  | '+' :: cs => (some false,cs)
  | cs => (none,cs)

def parseExponent : List Char → Option (Option Exponent × List Char)
  | c :: cs =>
    if c = 'e' ∨ c = 'E' then
      match takeDigits (parseSign cs).2 with
      | (d :: ds,rest) => some (some ⟨c = 'E',(parseSign cs).1,d,ds⟩,rest)
      | ([],_) => none
    else some (none,c :: cs)
  | [] => some (none,[])

def parseFraction : List Char → Option (List (Fin 10) × List Char)
  | '.' :: cs => match takeDigits cs with
    | ([],_) => none
    | (d :: ds,rest) => some (d :: ds,rest)
  | cs => some ([],cs)

/-- An integer part without leading zeros. -/
def parseWhole (cs : List Char) : Option (ℕ × List Char) :=
  match takeDigits cs with
  | ([],_) => none
  | (d :: ds,rest) => if d = 0 ∧ ds ≠ [] then none else some (digitsValue (d :: ds),rest)

def parseMinus : List Char → Bool × List Char
  | '-' :: cs => (true,cs)
  | cs => (false,cs)

def parseNumber (cs : List Char) : Option (Number × List Char) := do
  let w ← parseWhole (parseMinus cs).2
  let f ← parseFraction w.2
  let e ← parseExponent f.2
  return (⟨(parseMinus cs).1,w.1,f.1,e.1⟩,e.2)

def hex4 (a b c d : Char) : Option ℕ := do
  return 4096*(← hexValue a)+256*(← hexValue b)+16*(← hexValue c)+(← hexValue d)

/-- What a one-letter escape stands for. -/
def unescapeChar (c : Char) : Option ℕ :=
  if c = '"' ∨ c = '\\' ∨ c = '/' then some c.toNat
  else if c = 'n' then some 10
  else if c = 'r' then some 13
  else if c = 't' then some 9
  else if c = 'b' then some 8
  else if c = 'f' then some 12
  else none

/-- The code units of a string body up to its closing quote; a raw control character is
refused. -/
def parseUnits : List Char → Option (List ℕ × List Char)
  | [] => none
  | '"' :: rest => some ([],rest)
  | '\\' :: 'u' :: a :: b :: c :: d :: rest => do
    let n ← hex4 a b c d
    let r ← parseUnits rest
    return (n :: r.1,r.2)
  | '\\' :: e :: rest => do
    let n ← unescapeChar e
    let r ← parseUnits rest
    return (n :: r.1,r.2)
  | c :: rest => if c.toNat < 32 then none else do
    let r ← parseUnits rest
    return (c.toNat :: r.1,r.2)

/-- A lone surrogate decodes to the replacement character. -/
def unitChar (n : ℕ) : Char := if 0xD800 ≤ n ∧ n < 0xE000 then '\uFFFD' else Char.ofNat n

def joinUnits : List ℕ → List Char
  | [] => []
  | [n] => [unitChar n]
  | n :: m :: rest =>
    if 0xD800 ≤ n ∧ n < 0xDC00 ∧ 0xDC00 ≤ m ∧ m < 0xE000 then
      Char.ofNat (0x10000+(n-0xD800)*0x400+(m-0xDC00)) :: joinUnits rest
    else unitChar n :: joinUnits (m :: rest)

/-- A string literal, from its opening quote. -/
def parseString : List Char → Option (String × List Char)
  | '"' :: rest => do
    let r ← parseUnits rest
    return (String.ofList (joinUnits r.1),r.2)
  | _ => none

mutual
/-- One value with the text after it. The fuel bounds the number of nested calls. -/
def parseValue : ℕ → List Char → Option (Json × List Char)
  | 0,_ => none
  | fuel+1,cs => match skipSpace cs with
    | 'n' :: 'u' :: 'l' :: 'l' :: rest => some (.null,rest)
    | 't' :: 'r' :: 'u' :: 'e' :: rest => some (.bool true,rest)
    | 'f' :: 'a' :: 'l' :: 's' :: 'e' :: rest => some (.bool false,rest)
    | '"' :: rest => do
      let r ← parseString ('"' :: rest)
      return (.str r.1,r.2)
    | '[' :: rest => match skipSpace rest with
      | ']' :: rest => some (.arr [],rest)
      | rest => do
        let r ← parseItems fuel rest
        return (.arr r.1,r.2)
    | '{' :: rest => match skipSpace rest with
      | '}' :: rest => some (.obj [],rest)
      | rest => do
        let r ← parseMembers fuel rest
        return (.obj r.1,r.2)
    | rest => do
      let r ← parseNumber rest
      return (.num r.1,r.2)

/-- The items of a nonempty array, up to its closing bracket. -/
def parseItems : ℕ → List Char → Option (List Json × List Char)
  | 0,_ => none
  | fuel+1,cs => do
    let v ← parseValue fuel cs
    match skipSpace v.2 with
    | ']' :: rest => return ([v.1],rest)
    | ',' :: rest => do
      let r ← parseItems fuel rest
      return (v.1 :: r.1,r.2)
    | _ => none

/-- The members of a nonempty object, up to its closing brace. -/
def parseMembers : ℕ → List Char → Option (List (String × Json) × List Char)
  | 0,_ => none
  | fuel+1,cs => do
    let k ← parseString (skipSpace cs)
    match skipSpace k.2 with
    | ':' :: rest => do
      let v ← parseValue fuel rest
      match skipSpace v.2 with
      | '}' :: rest => return ([(k.1,v.1)],rest)
      | ',' :: rest => do
        let r ← parseMembers fuel rest
        return ((k.1,v.1) :: r.1,r.2)
      | _ => none
    | _ => none
end

/-- The document a text spells, when it spells one and nothing follows it. -/
def parse (cs : List Char) : Option Json :=
  match parseValue (cs.length+1) cs with
  | some (j,rest) => if skipSpace rest = [] then some j else none
  | none => none

/-- json.Compact with HTML escaping: white space between tokens goes, and the characters that
are unsafe inside HTML are escaped inside strings. -/
def compact (inString backslash : Bool) : List Char → List Char
  | [] => []
  | c :: cs =>
    if inString then
      (if c = '<' ∨ c = '>' ∨ c = '&' ∨ c.toNat = 0x2028 ∨ c.toNat = 0x2029
        then unicodeEscape c.toNat else [c]) ++
        compact (backslash || c != '"') (!backslash && c == '\\') cs
    else if isSpace c then compact false false cs
    else c :: compact (c == '"') false cs

/-- Encoding a raw value: refused when it is no document, compacted otherwise. -/
def marshalRaw (raw : RawMessage) : Except String RawMessage :=
  match parse raw with
  | some _ => .ok (compact false false raw)
  | none => .error "json: error calling MarshalJSON for type json.RawMessage"

end Json
end Manvi.Encoding
