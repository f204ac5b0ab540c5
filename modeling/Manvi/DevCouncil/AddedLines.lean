import Manvi.Computer.ReadBack
import Manvi.DevCouncil.Lines
import Manvi.Encoding.Quoted

/-! The lines that a staged patch adds: headers are told from content by the counts of each hunk. -/
namespace Manvi.DevCouncil
open Manvi.Encoding
open Manvi.Computer (decimalValue)

/-- The counts of a hunk header as they stand there, empty where the count is left out. -/
structure HunkCounts where
  old : Bytes
  new : Bytes
  deriving Repr, DecidableEq

/-- A sign, a line number and perhaps a count: the text of the count, and what follows. -/
def hunkRange (sign : UInt8) : Bytes → Option (Bytes × Bytes)
  | [] => none
  | c :: s =>
    let t := s.dropWhile isDigit
    if c = sign ∧ s.head?.any isDigit = true then
      if t.head? = some 44 ∧ t.tail.head?.any isDigit = true then
        some (t.tail.takeWhile isDigit,t.tail.dropWhile isDigit)
      else some ([],t)
    else none

def hunkHeader (line : Bytes) : Option HunkCounts :=
  if ascii "@@ " <+: line then do
    let (old,s) ← hunkRange 45 (line.drop 3)
    if s.head? = some 32 then do
      let (new,t) ← hunkRange 43 s.tail
      if ascii " @@" <+: t then some ⟨old,new⟩ else none
    else none
  else none

/-- A count, which is left out when it is 1. One that no int holds is 0. -/
def hunkCount (raw : Bytes) : ℕ := if raw = [] then 1 else if decimalValue raw < 2^63 then
    decimalValue raw else 0

/-- The name in a header line, without quotes and without the tab after a name with a space. -/
def unquotePatchName (raw : Bytes) : Option Bytes :=
  let raw := if raw.getLast? = some 9 then raw.dropLast else raw
  if raw.head? = some 34 then unquote raw else some raw

inductive PatchError where
  /-- A line is added to a file whose name was not read. -/
  | unattributed
  | hunkHeader (line : Bytes)
  deriving Repr, DecidableEq

/-- The text of an error, with the line in quotes. -/
def PatchError.text (quoted : Bytes → String) : PatchError → String
  | .unattributed => "the staged patch adds a line to a file whose name could not be read, so it was not checked"
  | .hunkHeader line => "the staged patch has a hunk header this check cannot read: " ++ quoted line

/-- The file being read, where its name is known, and the lines that are left of the hunk. -/
structure PatchScan where
  path : Option Bytes
  oldLeft : ℤ
  newLeft : ℤ
  deriving Repr, DecidableEq

def PatchScan.new : PatchScan := ⟨none,0,0⟩

/-- A line of a hunk: what it visits, and the scan after it. -/
def PatchScan.hunkLine (s : PatchScan) (line : Bytes) :
    Except PatchError (List (Bytes × Bytes) × PatchScan) := match line with
  | 43 :: added => match s.path with
    | none => .error .unattributed
    | some path => .ok ([(path,added)],{ s with newLeft := s.newLeft-1 })
  | 45 :: _ => .ok ([],{ s with oldLeft := s.oldLeft-1 })
  | _ => .ok ([],s)

/-- The path that a header line names, if it is one of the new side. -/
def plusPath (raw : Bytes) : Option Bytes := match unquotePatchName raw with
  | none => none
  | some name => if name = ascii "/dev/null" then none else if ascii "b/" <+: name then
    some (name.drop 2) else none

/-- A line between hunks. -/
def PatchScan.headerLine (s : PatchScan) (line : Bytes) : Except PatchError PatchScan :=
  if ascii "diff --git " <+: line then .ok { s with path := none }
  else if ascii "+++ " <+: line then .ok { s with path := plusPath (line.drop 4) }
  else if ascii "@@" <+: line then (match hunkHeader line with
    | none => .error (.hunkHeader line)
    | some m => .ok { s with oldLeft := hunkCount m.old, newLeft := hunkCount m.new })
  else .ok s

def PatchScan.line (s : PatchScan) (line : Bytes) :
    Except PatchError (List (Bytes × Bytes) × PatchScan) :=
  if 0 < s.oldLeft ∨ 0 < s.newLeft then s.hunkLine line
    else (s.headerLine line).map (fun s => ([],s))

/-- The lines that are visited, and the error that ended the scan. -/
def PatchScan.lines (s : PatchScan) : List Bytes → List (Bytes × Bytes) × Option PatchError
  | [] => ([],none)
  | l :: ls => match s.line l with
    | .error e => ([],some e)
    | .ok (visits,s') => (visits ++ (s'.lines ls).1,(s'.lines ls).2)

def scanAddedLines (patch : Bytes) : List (Bytes × Bytes) × Option PatchError :=
  PatchScan.new.lines ((cutLines patch).1 ++ [(cutLines patch).2])

end Manvi.DevCouncil
