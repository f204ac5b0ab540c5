import Manvi.Encoding.JsonLex

/-! Arguments that are nearly JSON: what is cut off around them, and which of their characters are
repaired. -/
namespace Manvi.OpenAICompat
open Manvi.Encoding Manvi.Encoding.Json

def isIdentChar (c : Char) : Bool :=
  ('a' ≤ c && c ≤ 'z') || ('A' ≤ c && c ≤ 'Z') || ('0' ≤ c && c ≤ '9') || c = '_'

/-- Where a walk stands: outside strings, or inside one with its quote and perhaps after a
backslash. -/
abbrev Quote := Option (Char × Bool)

/-- The walk goes past a character inside a string. -/
def inString (quoteChar : Char) (escaped : Bool) (c : Char) : Quote :=
  if escaped then some (quoteChar,false)
  else if c = '\\' then some (quoteChar,true)
  else if c = quoteChar then none
  else some (quoteChar,false)

/-- The walk of a word's replacement: how much of a replaced word is still to be passed over, and
the character before the one it stands at. -/
def replaceFrom (oldWord newWord : List Char) : ℕ → Option Char → Quote → List Char → List Char
  | _,_,_,[] => []
  | skip+1,_,q,c :: cs => replaceFrom oldWord newWord skip (some c) q cs
  | 0,_,some (quoteChar,escaped),c :: cs =>
    c :: replaceFrom oldWord newWord 0 (some c) (inString quoteChar escaped c) cs
  | 0,prev,none,c :: cs =>
    if c = '"' ∨ c = '\x27' then c :: replaceFrom oldWord newWord 0 (some c) (some (c,false)) cs
    else if oldWord.isPrefixOf (c :: cs) ∧ ¬ prev.any isIdentChar ∧
      ¬ ((c :: cs)[oldWord.length]?).any isIdentChar then
      newWord ++ replaceFrom oldWord newWord (oldWord.length-1) (some c) none cs
    else c :: replaceFrom oldWord newWord 0 (some c) none cs

/-- Rewrite a bare word outside strings. -/
def replaceWordLiteral (text oldWord newWord : List Char) : List Char :=
  if oldWord = [] ∨ ¬ oldWord <:+: text then text else replaceFrom oldWord newWord 0 none none text

/-- Whether the next character past white space closes an array or an object. -/
def closes (cs : List Char) : Bool := match skipSpace cs with
  | c :: _ => c = '}' || c = ']'
  | [] => false

def stripFrom : Quote → List Char → List Char
  | _,[] => []
  | some (quoteChar,escaped),c :: cs => c :: stripFrom (inString quoteChar escaped c) cs
  | none,c :: cs =>
    if c = '"' ∨ c = '\x27' then c :: stripFrom (some (c,false)) cs
    else if c = ',' ∧ closes cs then stripFrom none cs
    else c :: stripFrom none cs

/-- Drop each comma outside strings that stands before a closing brace or bracket. -/
def stripTrailingCommas (text : List Char) : List Char :=
  if !text.contains ',' then text else stripFrom none text

def repairJSONLiterals (s : List Char) : List Char :=
  let repaired := stripTrailingCommas s
  let repaired := replaceWordLiteral repaired ['T','r','u','e'] ['t','r','u','e']
  let repaired := replaceWordLiteral repaired ['F','a','l','s','e'] ['f','a','l','s','e']
  replaceWordLiteral repaired ['N','o','n','e'] ['n','u','l','l']

def fence : List Char := ['\x60','\x60','\x60']

/-- What stands between the lines of a markdown fence, when a text opens with one. -/
def insideFence (trimmed : List Char) : Option (List Char) :=
  if fence.isPrefixOf trimmed then
    let lines := trimmed.splitOn '\n'
    if lines.length ≥ 2 ∧ fence.isPrefixOf (lines.headD []) then
      let lines := lines.drop 1
      let lines := if fence.isPrefixOf (Runes.trimSpace (lines.getLastD [])) then lines.dropLast
        else lines
      some (Runes.trimSpace (['\n'].intercalate lines))
    else none
  else none

/-- The text from the first of one character to the last of another. -/
def bracketed (first last : Char) (text : List Char) : Option (List Char) :=
  match text.findIdx? (· = first),text.reverse.findIdx? (· = last) with
  | some start,some back =>
    let stop := text.length-1-back
    if start < stop then some ((text.take (stop+1)).drop start) else none
  | _,_ => none

/-- A text as it is or repaired, whichever is a document. -/
def repaired? (candidate : List Char) : Option RawMessage :=
  if valid candidate then some candidate
  else if valid (repairJSONLiterals candidate) then some (repairJSONLiterals candidate)
  else none

/-- Arguments as JSON where they can be made so, and whether they were rewritten for it. -/
def sanitizeJSONArgumentsReport (raw : List Char) : RawMessage × Bool :=
  let trimmed := Runes.trimSpace raw
  if trimmed = [] then (['{','}'],false)
  else if valid trimmed then (trimmed,false)
  else
    let trimmed := (insideFence trimmed).getD trimmed
    if valid trimmed then (trimmed,true)
    else match (bracketed '{' '}' trimmed).bind repaired? with
      | some args => (args,true)
      | none => match (bracketed '[' ']' trimmed).bind repaired? with
        | some args => (args,true)
        | none =>
          if valid (repairJSONLiterals trimmed) then (repairJSONLiterals trimmed,true)
          else (raw,false)

def sanitizeJSONArguments (raw : List Char) : RawMessage := (sanitizeJSONArgumentsReport raw).1

/-- Some commas outside strings are dropped, each of which stands before a closing brace or
bracket. -/
inductive CommasDropped : Lex → List Char → List Char → Prop
  | nil (s : Lex) : CommasDropped s [] []
  | keep {s : Lex} {a b : List Char} (c : Char) : CommasDropped (s.step c) a b →
      CommasDropped s (c :: a) (c :: b)
  | drop {a b : List Char} : closes a = true → CommasDropped .outside a b →
      CommasDropped .outside (',' :: a) b

/-- Some occurrences of a word outside strings are replaced, none of them part of a longer word. -/
inductive WordReplaced (oldWord newWord : List Char) : Lex → Option Char → List Char →
    List Char → Prop
  | nil (s : Lex) (prev : Option Char) : WordReplaced oldWord newWord s prev [] []
  | keep {s : Lex} {prev : Option Char} {a b : List Char} (c : Char) :
      WordReplaced oldWord newWord (s.step c) (some c) a b →
      WordReplaced oldWord newWord s prev (c :: a) (c :: b)
  | word {prev : Option Char} {a b : List Char} : prev.any isIdentChar = false →
      a.head?.any isIdentChar = false →
      WordReplaced oldWord newWord .outside oldWord.getLast? a b →
      WordReplaced oldWord newWord .outside prev (oldWord ++ a) (newWord ++ b)

/-- The only differences between a text and its repair: commas dropped before a closing brace or
bracket, and the bare words True, False and None replaced. -/
def Repaired (source args : List Char) : Prop := ∃ a b c, CommasDropped .outside source a ∧
  WordReplaced ['T','r','u','e'] ['t','r','u','e'] .outside none a b ∧
  WordReplaced ['F','a','l','s','e'] ['f','a','l','s','e'] .outside none b c ∧
  WordReplaced ['N','o','n','e'] ['n','u','l','l'] .outside none c args

end Manvi.OpenAICompat
