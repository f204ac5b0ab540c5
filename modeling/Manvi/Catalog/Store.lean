import Manvi.Encoding.Space
import Manvi.Encoding.Table

/-! The catalog of compiled capabilities: immutable revisions of one identity, and the one file that
says which of them is approved or revoked. -/
namespace Manvi.Catalog
open Manvi.Encoding

def maxArtifactBytes : ℕ := 1048576

def alphanumeric (c : Char) : Bool :=
  ('a' ≤ c && c ≤ 'z') || ('A' ≤ c && c ≤ 'Z') || ('0' ≤ c && c ≤ '9')

/-- The names that a directory or a revision may have. -/
def segment (s : String) : Bool :=
  match s.toList with
  | [] => false
  | c :: cs => alphanumeric c && cs.length ≤ 95 && cs.all (fun c => alphanumeric c || c = '_' ||
    c = '.' || c = '-')

/-- The gate of a revision, as it stands in a file; older files have none. -/
inductive Status where
  | blank
  | draft
  | approved
  | revoked
  | other (text : String)
  deriving Repr, DecidableEq

def Status.text : Status → String
  | .blank => ""
  | .draft => "draft"
  | .approved => "approved"
  | .revoked => "revoked"
  | .other text => text

def Status.ofText (s : String) : Status :=
  if s = "" then .blank else if s = "draft" then .draft else if s = "approved" then .approved
  else if s = "revoked" then .revoked else .other s

structure Stability where
  successRate : ℚ
  firstAttemptRate : ℚ
  meanRungIndex : ℚ
  recoveriesPerRun : ℚ
  runs : ℤ
  source : String
  deriving DecidableEq

def validateStability (st : Stability) : Except String Unit :=
  if [st.successRate,st.firstAttemptRate].any (fun v => v < 0 || 1 < v) then
    .error "stability rates must be in [0,1]"
  else if st.meanRungIndex < 0 ∨ st.recoveriesPerRun < 0 then
    .error "stability rung and recovery averages must be non-negative"
  else if st.runs < 0 then .error "stability runs must be non-negative"
  else .ok ()

structure Entry where
  id : String
  revision : String
  sha256 : String
  description : String
  path : String
  status : Status
  promoted : Bool
  stability : Option Stability
  deriving DecidableEq

def Entry.zero : Entry := ⟨"","","","","",.blank,false,none⟩

/-- A member of the pointer file. -/
inductive Member where
  | text (s : String)
  | flag (b : Bool)
  | stability (st : Stability)
  deriving DecidableEq

/-- The pointer file by the names of its members. -/
abbrev Members := Table String Member

def encodeEntry (e : Entry) : Members :=
  let m := ((((((Table.empty.set "id" (.text e.id)).set "revision" (.text e.revision)).set "sha256"
    (.text e.sha256)).set
    "description" (.text e.description)).set "path" (.text e.path)).set "status"
    (.text e.status.text)).set
    "promoted" (.flag e.promoted)
  match e.stability with
  | none => m
  | some st => m.set "stability" (.stability st)

def textAt (m : Members) (key : String) : Except String String :=
  match m.get key with
  | none => .ok ""
  | some (.text s) => .ok s
  | some _ => .error "json: cannot unmarshal into Go value of type string"

def flagAt (m : Members) (key : String) : Except String Bool :=
  match m.get key with
  | none => .ok false
  | some (.flag b) => .ok b
  | some _ => .error "json: cannot unmarshal into Go value of type bool"

def stabilityAt (m : Members) (key : String) : Except String (Option Stability) :=
  match m.get key with
  | none => .ok none
  | some (.stability st) => .ok (some st)
  | some _ => .error "json: cannot unmarshal into Go value of type Stability"

def decodeEntry (m : Members) : Except String Entry := do
  return ⟨← textAt m "id",← textAt m "revision",← textAt m "sha256",← textAt m "description",
    ← textAt m "path",
    Status.ofText (← textAt m "status"),← flagAt m "promoted",← stabilityAt m "stability"⟩

def normalizeStatus (e : Entry) : Entry :=
  match e.status with
  | .draft | .approved | .revoked => { e with promoted := e.status = .approved }
  | .blank => { e with status := if e.promoted then .approved else .draft }
  | .other _ => e

/-- A compiled capability. -/
structure Program where
  raw : Bytes
  digest : String
  id : String
  revision : String
  description : String
  deriving Repr, DecidableEq

/-- A catalog over one directory, for one identity; what the compiler makes of an artifact is its
own. -/
structure Store where
  root : String
  id : String
  compile : Bytes → Except String Program

/-- The directory of the identity. -/
structure Disk where
  revisions : Table String Bytes
  pointer : Option Members

namespace Store
variable (s : Store)

def path (revision : String) : String := s.root ++ "/" ++ s.id ++ "/" ++ revision ++ ".json"

def draftEntry (p : Program) (revision : String) : Entry :=
  ⟨s.id,revision,p.digest,p.description,s.path revision,.draft,false,none⟩

def readRegular (revisions : Table String Bytes) (revision : String) : Except String Bytes :=
  match revisions.get revision with
  | none => .error "file does not exist"
  | some raw => if maxArtifactBytes < raw.length then
    .error "catalog artifact must be a bounded regular file" else .ok raw

/-- What a listing takes from the pointer file. -/
def current (pointer : Option Members) : Except String (Option Entry) :=
  match pointer with
  | none => .ok none
  | some m => do
    let e ← decodeEntry m
    if e.id ≠ s.id ∨ !segment e.revision ∨ e.revision = "current" then
      .error "invalid promotion identity"
    else match (normalizeStatus e).status with
      | .draft | .approved | .revoked => .ok (some (normalizeStatus e))
      | _ => .error "invalid catalog status"

/-- One revision as it is listed without the pointer. -/
def row (revisions : Table String Bytes) (revision : String) : Except String Entry :=
  if !segment revision then .error "invalid catalog revision filename"
  else do
    let raw ← readRegular revisions revision
    let p ← s.compile raw
    if p.id ≠ s.id ∨ p.revision ≠ revision then
      .error "catalog identity does not match artifact path"
    else .ok (s.draftEntry p revision)

/-- The pointer is about this row. -/
def named (cur e : Entry) : Bool := cur.revision = e.revision && cur.sha256 = e.sha256

/-- A row with what the pointer says of its revision. -/
def mark (cur : Option Entry) (e : Entry) : Entry :=
  match cur with
  | none => e
  | some cur => if named cur e then
      { e with
        status := cur.status, promoted := cur.status = .approved, stability := cur.stability }
    else e

def listIdentity (names : List String) (pointer : Option Members) (revisions : Table String Bytes) :
    Except String (List Entry) :=
  do
  let cur ← s.current pointer
  let rows ← names.mapM (s.row revisions)
  if cur.all (fun cur => rows.any (named cur)) then
    .ok ((rows.map (mark cur)).insertionSort (fun a b => a.revision ≤ b.revision))
  else .error "promotion does not match an immutable artifact"

/-- A change of the pointer file that waits for its turn. -/
inductive Job where
  | status (revision sha description : String) (status : Status)
  | stability (revision sha : String) (st : Stability)
  deriving DecidableEq

/-- What is checked before a revision is approved or revoked. -/
def setStatus (revisions : Table String Bytes) (revision sha : String) (status : Status) :
    Except String Job :=
  if !segment s.id ∨ !segment revision ∨ revision = "current" then
    .error "invalid promotion identity"
  else if status ≠ .approved ∧ status ≠ .revoked then
    .error "catalog status must be approved or revoked"
  else do
    let raw ← readRegular revisions revision
    let p ← s.compile raw
    if p.id ≠ s.id ∨ p.revision ≠ revision ∨ p.digest ≠ sha then
      .error "promotion does not match a compiled revision"
    else .ok (.status revision sha p.description status)

/-- What is checked before a stability is attached. -/
def setStability (revision sha : String) (st : Stability) : Except String Job :=
  if !segment s.id ∨ !segment revision ∨ revision = "current" then .error "invalid catalog identity"
  else if sha = "" then .error "stability requires revision digest"
  else do
    validateStability st
    .ok (.stability revision sha st)

/-- The entry that a change of status starts from. -/
def prior (pointer : Option Members) (status : Status) : Except String Entry :=
  match pointer with
  | none => if status = .revoked then .error "cannot revoke without a catalog pointer"
    else .ok Entry.zero
  | some m => normalizeStatus <$> decodeEntry m

/-- The pointer file after a change, from what it was read as. -/
def rewrite (pointer : Option Members) : Job → Except String Members
  | .status revision sha description status => do
    let prior ← prior pointer status
    .ok (encodeEntry ⟨s.id,revision,sha,description,s.path revision,status,status = .approved,
      if prior.id = s.id ∧ prior.revision = revision ∧ prior.sha256 = sha then prior.stability
        else none⟩)
  | .stability revision sha st =>
    match pointer with
    | none => .error "file does not exist"
    | some m => do
      let cur ← decodeEntry m
      if cur.id ≠ s.id ∨ cur.revision ≠ revision ∨ cur.sha256 ≠ sha then
        .error "stability does not match current catalog pointer"
      else .ok (m.set "stability" (.stability st))

/-- A new artifact is linked in; one that is there must be the same. -/
def put (d : Disk) (p : Program) : Except String (Disk × Entry) :=
  if !segment p.id ∨ !segment p.revision ∨ p.revision = "current" then
    .error "invalid or reserved catalog identity"
  else match d.revisions.get p.revision with
    | none => .ok ({ d with revisions := d.revisions.set p.revision p.raw },
      s.draftEntry p p.revision)
    | some _ => do
      let raw ← readRegular d.revisions p.revision
      if raw ≠ p.raw then .error "revision is immutable; increment revision before changing it"
      else .ok (d,s.draftEntry p p.revision)

end Store

/-! Any number of processes use the catalog at once. Each call is a sequence of file operations, any
of which may fail, and a process may die between two of them. -/

inductive Call where
  | put (p : Program)
  | approve (revision sha : String)
  | promote (revision sha : String)
  | revoke (revision sha : String)
  | setStability (revision sha : String) (st : Stability)
  | list
  | get (revision : String)

inductive Result where
  | done
  | entry (e : Entry)
  | rows (rows : List Entry)
  | failed (error : String)
  deriving DecidableEq

/-- Where a process is in a call. -/
inductive Phase where
  | idle
  | called (call : Call)
  | waiting (job : Store.Job)
  | locked (job : Store.Job)
  | loaded (job : Store.Job) (pointer : Option Members)
  | scanned (get : Option String) (names : List String)
  | pointed (get : Option String) (names : List String) (pointer : Option Members)
  | returned (result : Result)

structure State where
  disk : Disk
  lock : Option ℕ
  procs : ℕ → Phase

/-- How a publication ends: before the name is in place, after it, or after it with an error. -/
inductive Written where
  | refused (error : String)
  | done
  | unsynced (error : String)
  deriving Repr, DecidableEq

inductive Move where
  | call (call : Call)
  | advance (fails : Option String)
  | giveUp (error : String)
  | publish (written : Written)
  | die

namespace State

def goto (t : State) (i : ℕ) (phase : Phase) : State :=
  { t with procs := Function.update t.procs i phase }

/-- The call of a process ends, and the lock is free if the process held it. -/
def finish (t : State) (i : ℕ) (result : Result) : State :=
  { t.goto i (.returned result) with lock := if t.lock = some i then none else t.lock }

end State

namespace Store
variable (s : Store)

/-- A read of the artifacts at the start of a call. -/
def begin (t : State) (i : ℕ) : Call → State
  | .put _ => t
  | .approve revision sha | .promote revision sha =>
    enter (s.setStatus t.disk.revisions revision sha .approved)
  | .revoke revision sha => enter (s.setStatus t.disk.revisions revision sha .revoked)
  | .setStability revision sha st => enter (s.setStability revision sha st)
  | .list => scan none
  | .get revision =>
    if !segment s.id ∨ !segment revision ∨ revision = "current" then
      t.finish i (.failed "invalid catalog identity")
    else scan (some revision)
where
  enter : Except String Job → State
    | .ok job => t.goto i (.waiting job)
    | .error e => t.finish i (.failed e)
  scan (get : Option String) : State :=
    if 4096 < t.disk.revisions.size then
      t.finish i (.failed "catalog directory exceeds 4096 entries")
    else t.goto i (.scanned get t.disk.revisions.keys)

/-- The answer of a listing, or of the one revision that was asked for. -/
def answer (get : Option String) : Except String (List Entry) → Result
  | .error e => .failed e
  | .ok rows => match get with
    | none => .rows rows
    | some revision => match rows.find? (fun e => e.revision = revision) with
      | some e => .entry e
      | none => .failed "unknown catalog revision"

def publishPointer (t : State) (i : ℕ) (m : Members) : Written → State
  | .refused e => t.finish i (.failed e)
  | .done => { t with disk := { t.disk with pointer := some m } }.finish i .done
  | .unsynced e => { t with disk := { t.disk with pointer := some m } }.finish i (.failed e)

def publishRevision (t : State) (i : ℕ) (p : Program) : Written → State
  | .refused e => t.finish i (.failed e)
  | w => match s.put t.disk p with
    | .error e => t.finish i (.failed e)
    | .ok (disk,entry) => match w with
      | .unsynced e => { t with disk := disk }.finish i (.failed e)
      | _ => { t with disk := disk }.finish i (.entry entry)

/-- One step of a process, when it can take it. -/
def step (t : State) (i : ℕ) : Move → Option State
  | .call call => match t.procs i with
    | .idle | .returned _ => match call with
      | .put p => if p.id = s.id then some (t.goto i (.called call)) else none
      | _ => some (t.goto i (.called call))
    | _ => none
  | .advance fails => match t.procs i with
    | .called (.put _) => none
    | .called call => some (match fails with
      | some e => t.finish i (.failed e)
      | none => s.begin t i call)
    | .waiting job => if t.lock = none then some { t.goto i (.locked job) with lock := some i }
      else none
    | .locked job => some (match fails with
      | some e => t.finish i (.failed e)
      | none => t.goto i (.loaded job t.disk.pointer))
    | .scanned get names => some (match fails with
      | some e => t.finish i (.failed e)
      | none => t.goto i (.pointed get names t.disk.pointer))
    | .pointed get names pointer => some (match fails with
      | some e => t.finish i (.failed e)
      | none => t.finish i (answer get (s.listIdentity names pointer t.disk.revisions)))
    | _ => none
  | .giveUp e => match t.procs i with
    | .waiting _ => some (t.finish i (.failed e))
    | _ => none
  | .publish written => match t.procs i with
    | .called (.put p) => some (s.publishRevision t i p written)
    | .loaded job pointer => some (match s.rewrite pointer job with
      | .error e => t.finish i (.failed e)
      | .ok m => publishPointer t i m written)
    | _ => none
  | .die => some { t.goto i .idle with lock := if t.lock = some i then none else t.lock }

def start : State := ⟨⟨Table.empty,none⟩,none,fun _ => .idle⟩

end Store

/-- A change of the pointer that a process came to the end of. -/
structure Did where
  job : Store.Job
  written : Written
  before : Disk
  after : Disk
  result : Result

/-- What a step adds to the history. -/
def did (t u : State) (i : ℕ) : Move → List Did
  | .publish written => match t.procs i,u.procs i with
    | .loaded job _,.returned result => [⟨job,written,t.disk,u.disk,result⟩]
    | _,_ => []
  | _ => []

/-- The runs of a catalog that was empty at first. -/
inductive Run (s : Store) : List Did → State → Prop
  | start : Run s [] Store.start
  | step {hist : List Did} {t u : State} (run : Run s hist t) (i : ℕ) (move : Move)
      (h : s.step t i move = some u) :
    Run s (hist ++ did t u i move) u

end Manvi.Catalog
