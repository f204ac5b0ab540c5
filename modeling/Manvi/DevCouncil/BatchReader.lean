import Manvi.Encoding.Space
import Manvi.Encoding.Spans

/-! The scan of staged blobs: what git cat-file writes is unframed as it arrives, and each object is
searched in windows. -/
namespace Manvi.DevCouncil
open Manvi.Encoding

/-- One object asked of git, and the name it is reported under. -/
structure BatchItem where
  id : Bytes
  label : String
deriving DecidableEq, Repr

/-- Why a scan fails. -/
inductive ScanFault
  | overBudget (label : String) (total budget : ℕ)
  | badFrame (label : String)
  | longHeader
  | moreObjects (header : Bytes)
  | missing (label : String) (id : Bytes)
  | notBlob (header : Bytes) (label : String) (id : Bytes)
  | unreadableSize (label : String) (size : Bytes)
  | exitStatus
  | incomplete (next items : ℕ)
deriving DecidableEq, Repr

/-- One value to find, and why finding it is a leak. -/
structure WindowNeedle where
  reason : String
  bytes : Bytes
deriving DecidableEq, Repr

/-- What a scan looks for, and how it cuts an object into windows. -/
structure ScanConfig where
  chunk : ℕ
  overlap : ℕ
  values : List WindowNeedle
  known : Option (Bytes → Bool)

structure WindowSink where
  label : String
  buf : Bytes
  fresh : ℕ
deriving DecidableEq, Repr

/-- A reported path with the reason. -/
abbrev Hit := String × String

def credentialReason : String := "contains a credential this process holds"

/-- Put bytes behind those of the window. -/
def WindowSink.gather (s : WindowSink) (p : Bytes) : WindowSink :=
  { s with buf := s.buf ++ p, fresh := s.fresh+p.length }

section sink
variable (cfg : ScanConfig)

/-- Search the window, and keep its last bytes in front of the next one. -/
def WindowSink.scan (s : WindowSink) : WindowSink × List Hit :=
  let values := (cfg.values.filter (fun n => contains s.buf n.bytes)).map (fun n =>
    (s.label,n.reason))
  let known := if cfg.known.any (fun known => known s.buf) then [(s.label,credentialReason)] else []
  ({ s with buf := s.buf.drop (s.buf.length-min s.buf.length cfg.overlap), fresh := 0 },
    values ++ known)

def WindowSink.write (s : WindowSink) (p : Bytes) : WindowSink × List Hit :=
  if cfg.chunk ≤ (s.gather p).fresh then (s.gather p).scan cfg else (s.gather p,[])

def WindowSink.close (s : WindowSink) : List Hit := if 0 < s.fresh then (s.scan cfg).2 else []

end sink

structure BatchReader where
  items : List BatchItem
  budget : ℕ
  next : ℕ
  hdr : Bytes
  cur : Option WindowSink
  curItem : BatchItem
  remain : ℕ
  needNL : Bool
  total : ℕ
  err : Option ScanFault
  hits : List Hit

def maxBatchHeaderBytes : ℕ := 256

/-- Keep the first error. -/
def BatchReader.fail (b : BatchReader) (fault : ScanFault) : BatchReader :=
  { b with err := if b.err = none then some fault else b.err }

/-- The size that a header line gives for an item. -/
def readHeader (item : BatchItem) (header : Bytes) : Except ScanFault ℕ :=
  match fields header with
  | [_,word] => if word = ascii "missing" then .error (.missing item.label item.id)
    else .error (.notBlob header item.label item.id)
  | [id,kind,size] =>
    if id ≠ item.id ∨ kind ≠ ascii "blob" then .error (.notBlob header item.label item.id)
    else match parseInt64 size with
      | some n => if n < 0 then .error (.unreadableSize item.label size) else .ok n.toNat
      | none => .error (.unreadableSize item.label size)
  | _ => .error (.notBlob header item.label item.id)

/-- Start the next object from its header line. -/
def BatchReader.begin (b : BatchReader) (header : Bytes) : BatchReader :=
  match b.items[b.next]? with
  | none => b.fail (.moreObjects header)
  | some item => match readHeader item header with
    | .error fault => b.fail fault
    | .ok size =>
      if size = 0 then { b with
        next := b.next+1, curItem := item, remain := 0, cur := none, needNL := true }
      else { b with
        next := b.next+1, curItem := item, remain := size, cur := some ⟨item.label,[],0⟩ }

section reader
variable (cfg : ScanConfig)

/-- The object has ended, and its sink is closed. -/
def BatchReader.ends (b : BatchReader) (n : ℕ) (wrote : WindowSink × List Hit) : BatchReader :=
  let hits := b.hits ++ wrote.2 ++ wrote.1.close cfg
  { b with total := b.total+n, remain := 0, cur := none, needNL := true, hits := hits }

/-- More of the object is to come. -/
def BatchReader.goes (b : BatchReader) (n : ℕ) (wrote : WindowSink × List Hit) : BatchReader :=
  { b with
    total := b.total+n, remain := b.remain-n, cur := some wrote.1, hits := b.hits ++ wrote.2 }

/-- Hand bytes of the current object to its sink. -/
def BatchReader.body (b : BatchReader) (sink : WindowSink) (rest : Bytes) : BatchReader × Bytes :=
  let n := min rest.length b.remain
  if b.budget < b.total+n then (b.fail (.overBudget b.curItem.label b.total b.budget),[])
  else
    let wrote := sink.write cfg (rest.take n)
    if b.remain-n = 0 then (b.ends cfg n wrote,rest.drop n) else (b.goes n wrote,rest.drop n)

/-- Gather a header line up to its end. -/
def BatchReader.header (b : BatchReader) (rest : Bytes) : BatchReader × Bytes :=
  match rest.idxOf? 10 with
  | none =>
    let b := { b with hdr := b.hdr ++ rest }
    if maxBatchHeaderBytes < b.hdr.length then (b.fail .longHeader,[]) else (b,[])
  | some i =>
    let header := b.hdr ++ rest.take i
    if maxBatchHeaderBytes < header.length then ({ b with hdr := header }.fail .longHeader,[])
    else ({ b with hdr := [] }.begin header,rest.drop (i+1))

/-- One round of a write: what is left of the bytes goes to the object, the newline behind it, or a
header. -/
def BatchReader.turn (b : BatchReader) (rest : Bytes) : BatchReader × Bytes :=
  match b.cur with
  | some sink => b.body cfg sink rest
  | none =>
    if b.needNL then
      if rest.head? ≠ some 10 then (b.fail (.badFrame b.curItem.label),[])
        else ({ b with needNL := false },rest.tail)
    else b.header rest

/-- Rounds until the bytes are used up or one fails. Each takes a byte at least. -/
def BatchReader.loop : ℕ → BatchReader → Bytes → BatchReader
  | 0,b,_ => b
  | fuel+1,b,rest =>
    if rest = [] ∨ b.err ≠ none then b else
      let (b,rest) := b.turn cfg rest
      loop fuel b rest

def BatchReader.write (b : BatchReader) (p : Bytes) : BatchReader :=
  if b.err ≠ none then b else b.loop cfg (p.length+1) p

end reader

/-- Whether every object asked for was read to its end. -/
def BatchReader.complete (b : BatchReader) : Option ScanFault :=
  match b.err with
  | some fault => some fault
  | none =>
    if b.next ≠ b.items.length ∨ b.cur ≠ none ∨ b.needNL ∨ b.hdr ≠ [] then
      some (.incomplete b.next b.items.length) else none

def BatchReader.new (items : List BatchItem) (budget : ℕ) : BatchReader :=
  ⟨items,budget,0,[],none,⟨[],""⟩,0,false,0,none,[]⟩

/-- Read the objects through the sinks: what git wrote, cut into writes, and whether it exited
well. -/
def streamBlobs (cfg : ScanConfig) (budget : ℕ) (items : List BatchItem) (writes : List Bytes)
    (exited : Bool) :
    Option ScanFault × List Hit :=
  if items = [] then (none,[]) else
    let b := writes.foldl (BatchReader.write cfg) (BatchReader.new items budget)
    match b.err with
    | some fault => (some fault,b.hits)
    | none => if ¬ exited then (some .exitStatus,b.hits) else (b.complete,b.hits)

/-- What the process provides to the scan, and its bounds. -/
structure ScanDeps where
  knownSecret : Option (Bytes → Bool)
  knownSecretMaxLen : Option ℤ
  chunkBytes : ℤ
  streamBytes : ℤ

def defaultKnownSecretMaxLen : ℤ := 4096

def defaultScanChunkBytes : ℕ := 2^20

def defaultScanStreamBytes : ℕ := 2^30

def ScanDeps.maxLen (deps : ScanDeps) : ℤ := deps.knownSecretMaxLen.getD defaultKnownSecretMaxLen

def ScanDeps.chunk (deps : ScanDeps) : ℕ :=
  if deps.chunkBytes ≤ 0 then defaultScanChunkBytes else deps.chunkBytes.toNat

def ScanDeps.budget (deps : ScanDeps) : ℕ :=
  if deps.streamBytes ≤ 0 then defaultScanStreamBytes else deps.streamBytes.toNat

/-- The values of the secret files, each with the file it is assigned in. -/
def needles (values : List (Bytes × String)) : List WindowNeedle :=
  values.map (fun v => ⟨"contains a value assigned in " ++ v.2,v.1⟩)

/-- The length of the longest value that is looked for. -/
def ScanDeps.longest (deps : ScanDeps) (values : List (Bytes × String)) : ℤ :=
  let longest := values.foldl (fun longest v => max longest (v.1.length : ℤ)) 0
  if deps.knownSecret.isSome then max longest deps.maxLen else longest

def ScanDeps.config (deps : ScanDeps) (values : List (Bytes × String)) : ScanConfig where
  chunk := deps.chunk
  overlap := (max (deps.longest values-1) 0).toNat
  values := needles values
  known := deps.knownSecret

/-- Search whole staged blobs for the values that the check holds. -/
def scanBlobs (deps : ScanDeps) (values : List (Bytes × String)) (items : List BatchItem)
    (writes : List Bytes) (exited : Bool) :
    Option ScanFault × List Hit :=
  if items = [] then (none,[])
  else if deps.knownSecret.isNone ∧ needles values = [] then (none,[])
  else streamBlobs (deps.config values) deps.budget items writes exited

end Manvi.DevCouncil
