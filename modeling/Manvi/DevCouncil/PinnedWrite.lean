import Manvi.Encoding.Space
import Manvi.Program.Triple

/-! A write to a path that was pinned before: the directories on the way are entered or made one by
one, the file is created or replaced, and each operation on the way may fail. -/
namespace Manvi.DevCouncil
open Manvi.Encoding Manvi.Program

/-- A place below the repository root. -/
abbrev Path := List String

/-- Where a symbolic link leads: to a place below the root, by a link that a walk through
descriptors follows or refuses, to nothing, or somewhere that is refused. -/
inductive LinkTarget
  | inside (place : Path) (followed : Bool)
  | missing
  | refused
  deriving DecidableEq

inductive Node
  | dir
  | file (bytes : Bytes) (links : ℕ)
  | link (target : LinkTarget)
  | other
  deriving DecidableEq

abbrev Files := Path → Option Node

/-- A file tree. What stands somewhere stands in a directory. -/
structure Tree where
  node : Files
  closed : ∀ place name, node (place ++ [name]) ≠ none → place = [] ∨ node place = some .dir

/-- The file operations of a write that may fail. Those on the directories of the path are
numbered. -/
inductive Op
  | openRoot
  | statRoot
  | mkdir (i : ℕ)
  | lstatDir (i : ℕ)
  | enterDir (i : ℕ)
  | statDir (i : ℕ)
  | lstatLeaf
  | openLeaf
  | statLeaf
  | lstatOpened
  | lstatRoot
  | lstatLink (i : ℕ)
  | linkCount
  | write
  | sync
  | close
  | lstatUnfinished
  | removeUnfinished
  | syncDir
  | closeOriginal
  | readNonce (n : ℕ)
  | createTemp (n : ℕ)
  | chmod
  | writeTemp
  | syncTemp
  | closeTemp
  | lstatLeafAgain
  | lstatRootAgain
  | lstatLinkAgain (i : ℕ)
  | rename
  | removeTemp
  deriving DecidableEq

/-- What a write depends on beside its arguments: which operations fail, how many bytes a write that
fails has written, and the nonces of temporary names. -/
structure Env where
  fails : Op → Bool
  written : ℕ
  nonce : ℕ → String

inductive WriteErr
  | failed (op : Op)
  | symlinkRefusal (component : String)
  | notDirectory (component : String)
  | changedIdentity (component : String)
  | notRegular
  | occupied
  | aliasRefusal (links : ℕ)
  | maybeChanged (err : WriteErr)
  | joined (err also : WriteErr)
  deriving DecidableEq

/-- Whether a failed write may have changed the file. -/
def writeMayHaveChanged : WriteErr → Bool
  | .maybeChanged _ => true
  | .joined err also => writeMayHaveChanged err || writeMayHaveChanged also
  | _ => false

/-- A pinned target: the directories of its path, how many of them exist and where, and whether the
file does. -/
structure PinnedTarget where
  parts : List String
  leaf : String
  dirs : List Path
  targetExisted : Bool
  deriving DecidableEq

/-- The places of the directories of a path that exist, from the first on, following links. -/
def pinDirs (files : Files) : Path → List String → Option (List Path)
  | _,[] => some []
  | here,part :: rest => match files (here ++ [part]) with
    | none => some []
    | some .dir => (pinDirs files (here ++ [part]) rest).map (fun dirs => (here ++ [part]) :: dirs)
    | some (.link (.inside place _)) =>
      if files place = some .dir then (pinDirs files place rest).map (fun dirs => place :: dirs)
        else none
    | some (.link .missing) => some []
    | some _ => none

/-- The last of some places, or the root. -/
def lastPlace (dirs : List Path) : Path := dirs.getLastD []

/-- Pin the place that a write is meant for. -/
def pinWriteTarget (files : Files) (parts : List String) (leaf : String) : Option PinnedTarget :=
  match pinDirs files [] parts with
  | none => none
  | some dirs =>
    if dirs.length = parts.length then
      match files (lastPlace dirs ++ [leaf]) with
      | none => some ⟨parts,leaf,dirs,false⟩
      | some (.link _) => none
      | some _ => some ⟨parts,leaf,dirs,true⟩
    else some ⟨parts,leaf,dirs,false⟩

/-- A program over the files, left with an error. -/
abbrev Act (α : Type) := Prog Files WriteErr α

/-- An operation that changes nothing by itself, and may fail. -/
def attempt (env : Env) (op : Op) : Act Unit :=
  if env.fails op then Prog.exit (.failed op) else pure ()

def lookup (place : Path) : Act (Option Node) := Prog.read (fun files => files place)

def put (place : Path) (node : Option Node) : Act Unit :=
  Prog.modify (fun files => Function.update files place node)

/-- Open a directory through the descriptor of its parent. -/
def openEntry (env : Env) (i : ℕ) (place : Path) : Act Path := do
  attempt env (.enterDir i)
  let found ← lookup place
  match found with
  | some .dir => pure place
  | some (.link (.inside target true)) => pure target
  | _ => Prog.exit (.failed (.enterDir i))

/-- Enter a directory that was pinned. -/
def enterPinned (env : Env) (i : ℕ) (here : Path) (name : String) (expected : Path) : Act Path := do
  let entered ← openEntry env i (here ++ [name])
  attempt env (.statDir i)
  if entered = expected then pure entered else Prog.exit (.changedIdentity name)

/-- Make a directory that did not exist, and enter it. One that is there by now is not made
again. -/
def enterMissing (env : Env) (i : ℕ) (here : Path) (name : String) : Act Path := do
  attempt env (.mkdir i)
  let there ← lookup (here ++ [name])
  Prog.when (there = none) (put (here ++ [name]) (some .dir))
  attempt env (.lstatDir i)
  let found ← lookup (here ++ [name])
  match found with
  | some .dir => do
    attempt env (.enterDir i)
    attempt env (.statDir i)
    pure (here ++ [name])
  | some (.link _) => Prog.exit (.symlinkRefusal name)
  | _ => Prog.exit (.notDirectory name)

namespace PinnedTarget

def enterDir (p : PinnedTarget) (env : Env) (i : ℕ) (here : Path) (name : String) : Act Path :=
  match p.dirs[i]? with
  | some expected => enterPinned env i here name expected
  | none => enterMissing env i here name

def enterDirs (p : PinnedTarget) (env : Env) : ℕ → Path → List String → Act (List Path)
  | _,_,[] => pure []
  | i,here,name :: rest => do
    let next ← p.enterDir env i here name
    let chain ← p.enterDirs env (i+1) next rest
    pure (next :: chain)

/-- Walk from the root to the parent directory of the leaf. -/
def openVerifiedParent (p : PinnedTarget) (env : Env) : Act (List Path) := do
  attempt env .openRoot
  attempt env .statRoot
  p.enterDirs env 0 [] p.parts

end PinnedTarget

/-- Check that each directory of a chain is still the entry its parent names. -/
def checkLinks (env : Env) (op : ℕ → Op) : ℕ → Path → List String → List Path → Act Unit
  | i,here,name :: rest,place :: chain => do
    attempt env (op i)
    let found ← lookup (here ++ [name])
    if found = some .dir ∧ here ++ [name] = place then checkLinks env op (i+1) place rest chain
    else Prog.exit (.changedIdentity name)
  | _,_,_,_ => pure ()

def stillLinked (env : Env) (root : Op) (op : ℕ → Op) (parts : List String) (chain : List Path) :
    Act Unit := do
  attempt env root
  checkLinks env op 0 [] parts chain

/-- Check that the pinned file is still there. -/
def verifyLeafIdentity (env : Env) (op : Op) (place : Path) (leaf : String) : Act Unit := do
  attempt env op
  let found ← lookup place
  match found with
  | none => Prog.exit (.failed op)
  | some (.link _) => Prog.exit (.symlinkRefusal leaf)
  | some _ => pure ()

namespace PinnedTarget

/-- Open the file that was pinned, or create it. -/
def openLeaf (p : PinnedTarget) (env : Env) (place : Path) : Act Unit := do
  attempt env .openLeaf
  let found ← lookup place
  if p.targetExisted then
    match found with
    | some (.file _ _) | some .other => pure ()
    | _ => Prog.exit (.failed .openLeaf)
  else
    match found with
    | none => put place (some (.file [] 1))
    | some _ => Prog.exit .occupied

/-- Check that what was opened is a regular file, and that its path still leads to it. -/
def checkOpened (p : PinnedTarget) (env : Env) (chain : List Path) (place : Path) : Act Unit := do
  attempt env .statLeaf
  let found ← lookup place
  match found with
  | some (.file _ _) => do
    attempt env .lstatOpened
    stillLinked env .lstatRoot .lstatLink p.parts chain
  | _ => Prog.exit .notRegular

/-- Count the names of the opened file. -/
def linkCount (env : Env) (place : Path) : Act Unit := do
  attempt env .linkCount
  let found ← lookup place
  match found with
  | some (.file _ links) => if 1 < links then Prog.exit (.aliasRefusal links) else pure ()
  | _ => pure ()

end PinnedTarget

/-- Write a file, make it durable and close it. The first failure is the result. -/
def writeAndClose (env : Env) (writing syncing closing : Op) (place : Path) (data : Bytes) :
    Act (Option WriteErr) :=
  if env.fails writing then do
    put place (some (.file (data.take env.written) 1))
    pure (some (.failed writing))
  else do
    put place (some (.file data 1))
    pure (if env.fails syncing then some (.failed syncing) else if env.fails closing then
      some (.failed closing) else none)

/-- Take away a file that was created and not finished. -/
def discardCreated (env : Env) (place : Path) : Act (Option WriteErr) :=
  if env.fails .lstatUnfinished then pure none
  else if env.fails .removeUnfinished then pure (some (.maybeChanged (.failed .removeUnfinished)))
  else do
    put place none
    pure none

def publishDir (env : Env) : Act Unit :=
  if env.fails .syncDir then Prog.exit (.maybeChanged (.failed .syncDir)) else pure ()

def tempName (env : Env) (leaf : String) (n : ℕ) : String :=
  "." ++ leaf ++ "." ++ env.nonce n ++ ".tmp"

/-- Create a temporary file beside the leaf, under the first of some names that is free. -/
def createTemp (env : Env) (parent : Path) (leaf : String) : ℕ → ℕ → Act Path
  | 0,n => Prog.exit (.failed (.createTemp n))
  | tries+1,n => do
    attempt env (.readNonce n)
    attempt env (.createTemp n)
    let place := parent ++ [tempName env leaf n]
    let found ← lookup place
    match found with
    | none => do
      put place (some (.file [] 1))
      pure place
    | some _ => createTemp env parent leaf tries (n+1)

namespace PinnedTarget

/-- Fill the temporary file and move it over the leaf. -/
def fillAndRename (p : PinnedTarget) (env : Env) (chain : List Path) (place temp : Path)
    (data : Bytes) : Act Unit := do
  attempt env .chmod
  let err ← writeAndClose env .writeTemp .syncTemp .closeTemp temp data
  match err with
  | some err => Prog.exit err
  | none => do
    verifyLeafIdentity env .lstatLeafAgain place p.leaf
    stillLinked env .lstatRootAgain .lstatLinkAgain p.parts chain
    attempt env .rename
    let found ← lookup temp
    put place found
    put temp none

/-- Write the data beside the leaf and rename it over the pinned file. A temporary file that was not
renamed is removed; that this fails is not reported. -/
def replaceByRename (p : PinnedTarget) (env : Env) (chain : List Path) (data : Bytes) :
    Act Unit := do
  let place := lastPlace chain ++ [p.leaf]
  let temp ← createTemp env (lastPlace chain) p.leaf 16 0
  (p.fillAndRename env chain place temp data).rescue (fun err => do
    Prog.when (env.fails .removeTemp = false) (put temp none)
    Prog.exit err)
  publishDir env

/-- Fill the file that this write created. -/
def fillCreated (env : Env) (place : Path) (data : Bytes) : Act Unit := do
  let err ← writeAndClose env .write .sync .close place data
  match err with
  | none => publishDir env
  | some err => do
    let also ← discardCreated env place
    match also with
    | some also => Prog.exit (.joined err also)
    | none => Prog.exit err

/-- The rest of a write, behind the walk. -/
def fill (p : PinnedTarget) (env : Env) (data : Bytes) (chain : List Path) : Act Unit := do
  let place := lastPlace chain ++ [p.leaf]
  Prog.when (p.targetExisted = true) (verifyLeafIdentity env .lstatLeaf place p.leaf)
  p.openLeaf env place
  p.checkOpened env chain place
  linkCount env place
  if p.targetExisted then do
    attempt env .closeOriginal
    p.replaceByRename env chain data
  else fillCreated env place data

/-- Store data at the pinned place. -/
def write (p : PinnedTarget) (env : Env) (data : Bytes) : Act Unit := do
  let chain ← p.openVerifiedParent env
  p.fill env data chain

end PinnedTarget

end Manvi.DevCouncil
