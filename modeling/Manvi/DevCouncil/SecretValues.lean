import Manvi.Encoding.Space
import Manvi.Encoding.Table

/-! The values that secret files assign: lines are put together from what is written, within bounds
that are noted. -/
namespace Manvi.DevCouncil
open Manvi.Encoding

/-- The spaces of a pattern. -/
def patternSpace (c : UInt8) : Bool := c = 9 || c = 10 || c = 12 || c = 13 || c = 32

def asciiLetter (c : UInt8) : Bool := (97 ≤ c && c ≤ 122) || (65 ≤ c && c ≤ 90)

def asciiDigit (c : UInt8) : Bool := 48 ≤ c && c ≤ 57

/-- What may begin a key, and what may follow: letters, digits and _ . - -/
def keyStart (c : UInt8) : Bool := asciiLetter c || c = 95

def keyByte (c : UInt8) : Bool := asciiLetter c || asciiDigit c || c = 95 || c = 46 || c = 45

/-- The shortest text with only spaces around it. Where there are only spaces the last of them is
left for it. -/
def assignedTo (s : Bytes) : Option Bytes :=
  let v := ((s.dropWhile patternSpace).reverse.dropWhile patternSpace).reverse
  if v ≠ [] then some v else s.getLast?.map (fun c => [c])

/-- A key, then = or :, then what it is assigned. -/
def assignment : Bytes → Option (Bytes × Bytes)
  | [] => none
  | c :: s =>
    if keyStart c then match (s.dropWhile keyByte).dropWhile patternSpace with
      | [] => none
      | d :: after => if d = 61 ∨ d = 58 then
        (assignedTo after).map (fun v => (c :: s.takeWhile keyByte,v)) else none
    else none

/-- The key and the value of a line that assigns one, with or without an export before it. -/
def assignedValue (line : Bytes) : Option (Bytes × Bytes) :=
  let s := line.dropWhile patternSpace
  if ascii "export" <+: s ∧ (s.drop 6).head?.any patternSpace = true then
    match assignment ((s.drop 6).dropWhile patternSpace) with
    | some m => some m
    | none => assignment s
  else assignment s

def minSecretValueLen : ℕ := 8

def credentialKeyHints : List Bytes :=
  ["key","token","secret","pass","pwd","credential","auth","private","dsn","database_url",
    "conn"].map ascii

def asciiLower (c : UInt8) : UInt8 := if 65 ≤ c ∧ c ≤ 90 then c+32 else c

def credentialKeyHint (key : Bytes) : Bool :=
  credentialKeyHints.any (fun hint => hint <:+: key.map asciiLower)

/-- An assigned value is worth matching. -/
def looksCredential (key value : Bytes) : Bool :=
  if value.length < minSecretValueLen then false
  else if credentialKeyHint key then true
  else if value.length < 16 then false
  else value.any asciiLetter && value.any asciiDigit

def isQuote (c : UInt8) : Bool := c = 34 || c = 39

def trimQuotes (s : Bytes) : Bytes := ((s.dropWhile isQuote).reverse.dropWhile isQuote).reverse

/-- The value of a line that looks like a credential. -/
def credentialOf (line : Bytes) : Option Bytes := match assignedValue line with
  | none => none
  | some (key,value) => if looksCredential key (trimQuotes value) then some (trimQuotes value)
    else none

structure ScanLimits where
  secretLineBytes : ℕ
  secretTotalBytes : ℕ
  secretValues : ℕ
  deriving Repr, DecidableEq

/-- A check that a bound held back. -/
structure ScanNote where
  kind : String
  file : String
  bound : String
  stillChecked : String
  operatorAction : String
  deriving Repr, DecidableEq

def operatorOnly : String :=
  "an operator can split the file or move it out of the repository; the agent cannot, because secret paths are write-protected for it"

structure ValueScan where
  values : Table Bytes String
  total : ℕ
  exhausted : Bool
  full : Bool
  notes : List ScanNote

def ValueScan.new : ValueScan := ⟨.empty,0,false,false,[]⟩

namespace ValueScan

def noted (v : ValueScan) (kind file : String) : Bool :=
  v.notes.any (fun n => n.kind = kind && n.file = file)

/-- One note for each kind and file. -/
def noteOnce (v : ValueScan) (n : ScanNote) : ValueScan :=
  if v.noted n.kind n.file then v else { v with notes := v.notes ++ [n] }

def stillSearched (count : ℕ) : String :=
  "staged blobs are still compared by blob id with every version git holds of this file (exact copies), and searched for the "
    ++ toString count ++ " value(s) collected before the bound"

def noteBound (v : ValueScan) (kind file bound : String) : ValueScan :=
  v.noteOnce ⟨kind,file,bound,stillSearched v.values.size,operatorOnly⟩

def noteUnreadable (v : ValueScan) (path : String) (tracked : Bool) (err : String) : ValueScan :=
  v.noteOnce ⟨"unreadable_worktree",path,"the working-tree copy could not be opened or read (" ++
    err ++ ")",
    if tracked then "the index and HEAD versions of the file, by blob id and by value; its working-tree copy was neither hashed nor read, so a staged copy of an unstaged edit is not matched by blob id"
    else "nothing: the file is untracked, so neither its blob id nor its values were collected",
    "make the file readable by the harness user, or restore it; the agent cannot change a secret path's permissions"⟩

end ValueScan

structure ValueSink where
  path : String
  line : Bytes
  lineNo : ℕ
  skipping : Bool
  truncated : Bool

/-- The scan, and the file that is being read. -/
structure Reading where
  scan : ValueScan
  sink : ValueSink

section reading
variable (limits : ScanLimits)

def totalBound : String := "the secret-path files hold more than the " ++
    toString limits.secretTotalBytes ++ " bytes this check reads for their values"

def lineBound (lineNo : ℕ) : String := "line " ++ toString lineNo ++ " is over the " ++
    toString limits.secretLineBytes
  ++ "-byte per-line cap this check reads for values, so that line was not checked"

def valueBound (lineNo : ℕ) (path : String) : String :=
  "the secret-path files assign more than the " ++ toString limits.secretValues
  ++ " credential values this check holds (reading stopped adding at line " ++ toString lineNo ++
  " of " ++ path ++ ")"

/-- Read the assignment on a line, if it is one. -/
def ValueScan.collect (v : ValueScan) (path : String) (lineNo : ℕ) (line : Bytes) : ValueScan :=
  match credentialOf line with
  | none => v
  | some value =>
    if (v.values.get value).isNone ∧ limits.secretValues ≤ v.values.size then
      { v with full := true }.noteBound "value_cap" path (valueBound limits lineNo path)
    else { v with values := v.values.set value path }

def Reading.flush (r : Reading) : Reading :=
  ⟨r.scan.collect limits r.sink.path (r.sink.lineNo+1) r.sink.line,
    { r.sink with line := [], lineNo := r.sink.lineNo+1 }⟩

/-- More of the present line. -/
def Reading.extend (r : Reading) (chunk : Bytes) : Reading :=
  if r.sink.skipping then r
  else if limits.secretLineBytes < (r.sink.line ++ chunk).length then
    ⟨r.scan.noteBound "line_cap" r.sink.path (lineBound limits (r.sink.lineNo+1)),
      { r.sink with line := [], skipping := true }⟩
  else { r with sink := { r.sink with line := r.sink.line ++ chunk } }

def Reading.endLine (r : Reading) : Reading :=
  if r.sink.skipping then { r with
    sink := { r.sink with skipping := false, lineNo := r.sink.lineNo+1 } }
  else r.flush limits

/-- The lines of what is written, for so many of them. -/
def Reading.feed : ℕ → Reading → Bytes → Reading
  | 0,r,_ => r
  | n+1,r,p =>
    if p = [] then r
    else if 10 ∈ p then Reading.feed n ((r.extend limits (p.takeWhile (· ≠ 10))).endLine limits)
      (p.dropWhile (· ≠ 10)).tail
    else r.extend limits p

def Reading.write (r : Reading) (p : Bytes) : Reading :=
  if r.scan.exhausted then
    ⟨r.scan.noteBound "total_cap" r.sink.path (totalBound limits),{ r.sink with truncated := true }⟩
  else if limits.secretTotalBytes-r.scan.total < p.length then
    let p := p.take (limits.secretTotalBytes-r.scan.total)
    let scan := { r.scan with exhausted := true }.noteBound "total_cap" r.sink.path
      (totalBound limits ++ " (reading stopped in " ++ r.sink.path ++ ")")
    Reading.feed limits p.length ⟨{ scan with total := scan.total+p.length },
      { r.sink with truncated := true }⟩ p
  else Reading.feed limits p.length { r with
    scan := { r.scan with total := r.scan.total+p.length } } p

/-- A line that the bound on all bytes cut is not a line. -/
def Reading.close (r : Reading) : Reading := if r.sink.line ≠ [] ∧ ¬ r.sink.truncated then
    r.flush limits else r

end reading

/-- A secret file: what can be read of it, and the errors met. -/
structure SecretFile where
  path : String
  tracked : Bool
  openErr : Option String
  body : Bytes
  readErr : Option String
  deriving Repr, DecidableEq

/-- Read one file, as its bytes arrive. -/
def readValues (limits : ScanLimits) (v : ValueScan) (file : SecretFile) (writes : List Bytes) :
    ValueScan := match file.openErr with
  | some err => v.noteUnreadable file.path file.tracked err
  | none =>
    let r := writes.foldl (Reading.write limits) ⟨v,⟨file.path,[],0,false,false⟩⟩
    match file.readErr with
    | some err => r.scan.noteUnreadable file.path file.tracked err
    | none => (r.close limits).scan

end Manvi.DevCouncil
