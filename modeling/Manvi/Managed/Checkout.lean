import Manvi.Program.Triple
import Manvi.Managed.Harness

/-! A checkout on disk, and the file operations that put a harness block into it and take it out.
Each operation may fail, and the process may end before any of them. -/
namespace Manvi.Managed
open Manvi.Encoding Manvi.Program

/-- The text of a record, by what its two decoders read from it. -/
structure RecordText where
  strict : Option PendingRestore
  own : Option Bytes
deriving DecidableEq, Repr

def RecordText.written (p : PendingRestore) : RecordText := ⟨some p,some p.nonce⟩

/-- The beginning of a record decodes to nothing. -/
def RecordText.unreadable : RecordText := ⟨none,none⟩

structure Disk where
  files : String → Option Bytes
  record : Option RecordText

/-- How a new file was left unfinished: the process ended, or the write failed and so did taking the
file away, which is reported as a possible change or not. -/
inductive Torn
  | ended
  | reported
  | unreported
deriving DecidableEq, Repr

/-- How a file operation goes. -/
inductive Outcome
  | done
  | denied
  | failed
  | changed
  | torn (size : ℕ) (left : Torn)
deriving DecidableEq, Repr

/-- What an operation did to a file, by its name. -/
inductive Effect
  | wrote (name : String)
  | removed (name : String)
  | tore (name : String)
deriving DecidableEq, Repr

/-- The disk, how the operations still to come will go, and what those that were made have done. -/
structure World where
  disk : Disk
  outcomes : List Outcome
  effects : List Effect

/-- A program over the disk, left early where the process ends. -/
abbrev Act (α : Type) := Prog World Unit α

/-- How the next operation goes. The process ends where no outcome is left. -/
def nextOutcome : Act Outcome := fun w => match w.outcomes with
  | [] => (.error (),w)
  | o :: rest => (.ok o,{ w with outcomes := rest })

/-- A place on the disk that one file has. -/
structure Slot (β : Type) where
  name : String
  get : Disk → Option β
  put : Option β → Disk → Disk
  torn : ℕ → β → β

def Slot.file (name : String) : Slot Bytes where
  name := name
  get := fun d => d.files name
  put := fun content d => { d with files := Function.update d.files name content }
  torn := fun size data => data.take size

def harnessPendingFile : String := ".devcouncil/managed-harness-pending.json"

def Slot.pending : Slot RecordText where
  name := harnessPendingFile
  get := fun d => d.record
  put := fun content d => { d with record := content }
  torn := fun _ _ => .unreadable

def Slot.set {β : Type} (slot : Slot β) (content : Option β) (effect : String → Effect) :
    Act Unit :=
  Prog.modify (fun w => { w with
    disk := slot.put content w.disk, effects := w.effects ++ [effect slot.name] })

/-- What a pinned read comes to. -/
inductive ReadResult (β : Type)
  | refused
  | absent
  | ok (content : β)

def Slot.read {β : Type} (slot : Slot β) (fits : β → Bool) : Act (ReadResult β) := do
  let outcome ← nextOutcome
  let content ← Prog.read (fun w => slot.get w.disk)
  match outcome,content with
  | .done,none => pure .absent
  | .done,some content => pure (if fits content then .ok content else .refused)
  | _,_ => pure .refused

/-- Judge a write and make it through the pinned writer. A file that exists is replaced in one step,
and a new one is created and then filled. -/
def Slot.write {β : Type} (slot : Slot β) (data : β) : Act (List HarnessFault) := do
  let outcome ← nextOutcome
  let content ← Prog.read (fun w => slot.get w.disk)
  match outcome with
  | .done => slot.set (some data) .wrote; pure []
  | .denied => pure [.gateRefused slot.name]
  | .failed => pure [.writing slot.name false]
  | .changed => slot.set (some data) .wrote; pure [.writing slot.name true]
  | .torn size left => do
    Prog.when (content.isNone) (slot.set (some (slot.torn size data)) .tore)
    match left with
    | .ended => Prog.exit ()
    | .reported => pure [.writing slot.name content.isNone]
    | .unreported => pure [.writing slot.name false]

def Slot.remove {β : Type} (slot : Slot β) : Act (List HarnessFault) := do
  let outcome ← nextOutcome
  match outcome with
  | .done => slot.set none .removed; pure []
  | .denied => pure [.gateRefused slot.name]
  | .changed => slot.set none .removed; pure [.removing slot.name]
  | .failed => pure [.removing slot.name]
  | .torn _ .ended => Prog.exit ()
  | .torn _ _ => pure [.removing slot.name]

def writeMayHaveChanged : List HarnessFault → Bool
  | [.writing _ mayHaveChanged] => mayHaveChanged
  | _ => false

def readInstructionFile (file : String) : Act (ReadResult Bytes) :=
  (Slot.file file).read (fun content => content.length ≤ maxInstructionFileBytes)

/-- The size of a record is within its bound: the appended bytes are, and base64 adds a third. -/
def readRecord : Act (ReadResult RecordText) := Slot.pending.read (fun _ => true)

/-- Remove the record if it is the one of the block with this nonce. -/
def removeRecord (nonce : Bytes) : Act (List HarnessFault) := do
  match ← readRecord with
  | .absent => pure []
  | .refused => pure [.readingRecord]
  | .ok raw => if raw.own = some nonce then Slot.pending.remove else pure []

structure HarnessMaterialisation where
  file : String
  pending : PendingRestore
deriving DecidableEq, Repr

/-- Decide what a block write that may have changed the file came to. -/
def HarnessMaterialisation.afterUnknownWrite (m : HarnessMaterialisation)
    (writeErr : List HarnessFault) :
    Act (Option HarnessMaterialisation × List HarnessFault) := do
  match ← readInstructionFile m.file with
  | .ok current =>
    if contains current m.pending.appended then pure (some m,[])
    else do
      let err ← removeRecord m.pending.nonce
      pure (none,writeErr ++ err)
  | .absent => do
    let err ← removeRecord m.pending.nonce
    pure (none,writeErr ++ err)
  | .refused => pure (some m,writeErr ++ [.unknownWrite m.file])

/-- What is recorded of a block that is put behind the content of a file. -/
def PendingRestore.of (file : String) (nonce block : Bytes) (content : Option Bytes) :
    PendingRestore where
  version := 1
  nonce := nonce
  file := file
  existed := content.isSome
  offset := (content.getD []).length
  appended := separator (content.getD []) ++ block

/-- Write the record, then the block behind the content of the file. -/
def HarnessMaterialisation.put (m : HarnessMaterialisation) (before : Bytes) :
    Act (Option HarnessMaterialisation × List HarnessFault) := do
  let recordErr ← Slot.pending.write (.written m.pending)
  if recordErr ≠ [] then
    if writeMayHaveChanged recordErr then do
      let err ← removeRecord m.pending.nonce
      pure (none,recordErr ++ err)
    else pure (none,recordErr)
  else do
    let writeErr ← (Slot.file m.file).write (before ++ m.pending.appended)
    if writeErr = [] then pure (some m,[])
    else if ¬ writeMayHaveChanged writeErr then do
      let err ← removeRecord m.pending.nonce
      pure (none,writeErr ++ err)
    else m.afterUnknownWrite writeErr

/-- Write a block behind the content of a file, if its record is one that can be restored. -/
def materialiseBlock (file : String) (nonce block : Bytes) (before : Option Bytes) :
    Act (Option HarnessMaterialisation × List HarnessFault) :=
  let pending := PendingRestore.of file nonce block before
  match pending.valid,pending.fitsRestoreBound with
  | some why,_ => pure (none,[.unrecognisable why])
  | none,some fault => pure (none,[fault])
  | none,none => HarnessMaterialisation.put ⟨file,pending⟩ (before.getD [])

/-- Write the block of a spec into the instruction file of a provider. -/
def materialiseHarness (provider : String) (spec : HarnessSpec) (nonce : Option Bytes) :
    Act (Option HarnessMaterialisation × List HarnessFault) :=
  match harnessInstructionFile provider,nonce with
  | none,_ => pure (none,[.noInstructionFile provider])
  | some _,none => pure (none,[.noNonce])
  | some file,some nonce => match renderHarnessBlock spec nonce with
    | .error fault => pure (none,[fault])
    | .ok [] => pure (none,[])
    | .ok block => do
      match ← readInstructionFile file with
      | .ok before => materialiseBlock file nonce block (some before)
      | .absent => materialiseBlock file nonce block none
      | .refused => pure (none,[.reading file])

/-- Take the recorded block out of the file and clear the record. -/
def restoreRecorded (p : PendingRestore) : Act (List HarnessFault) :=
  match p.valid with
  | some why => pure [.recordUnusable why]
  | none => do
    match ← readInstructionFile p.file with
    | .absent => removeRecord p.nonce
    | .refused => pure [.readRefused p.file p.nonce]
    | .ok current =>
      let cut := cutSpans current p.appended p.offset
      if cut.2 = 0 then
        if contains current (nonceMarker p.nonce) then pure [.blockModified p.file]
        else removeRecord p.nonce
      else if p.existed = false ∧ trimSpace cut.1 = [] then do
        let err ← (Slot.file p.file).remove
        if err ≠ [] then pure err else removeRecord p.nonce
      else do
        let err ← (Slot.file p.file).write cut.1
        if err ≠ [] then pure [.takingOut p.file err] else removeRecord p.nonce

/-- Take the block out at the end of the run. -/
def HarnessMaterialisation.restore (m : HarnessMaterialisation) : Act (List HarnessFault) :=
  restoreRecorded m.pending

/-- Take the block of a held run out, if the record is that run's own. -/
def restoreHeldBlock (nonce : Bytes) : Act (List HarnessFault) := do
  match ← readRecord with
  | .absent => pure []
  | .refused => pure [.readingHeldRecord]
  | .ok raw => match raw.strict with
    | none => pure []
    | some p => if p.nonce ≠ nonce then pure [] else restoreRecorded p

/-- Whether a fault wraps the error of a record that cannot be used. -/
def HarnessFault.unusable : HarnessFault → Bool
  | .recordUnusable _ => true
  | _ => false

/-- Whether a fault wraps the error of a block that was edited. -/
def HarnessFault.modified : HarnessFault → Bool
  | .blockModified _ => true
  | _ => false

/-- Apply a record that a run left behind. -/
def recoverPendingHarness : Act (List HarnessFault) := do
  match ← readRecord with
  | .absent => pure []
  | .refused => pure [.readingLeftRecord]
  | .ok raw => match raw.strict with
    | none => do
      let err ← Slot.pending.remove
      pure (.unreadableRecord :: err)
    | some p => do
      let err ← restoreRecorded p
      if err.any HarnessFault.unusable then do
        let clear ← Slot.pending.remove
        pure (err ++ clear)
      else if err.any HarnessFault.modified then do
        let clear ← removeRecord p.nonce
        pure (err ++ clear)
      else pure err

section operations
variable {β : Type} {d : Disk} {es : List Effect}

/-- The disk and what has been done so far. -/
def At (d : Disk) (es : List Effect) (w : World) : Prop := w.disk = d ∧ w.effects = es

/-- A read gives what is there, or refuses. -/
def ReadResult.of (content : Option β) (fits : β → Bool) : ReadResult β → Prop
  | .refused => True
  | .absent => content = none
  | .ok data => content = some data ∧ fits data = true

lemma nextOutcome_triple : Triple (At d es) nextOutcome (fun _ => At d es) (fun _ => At d es) := by
  intro w hw
  unfold nextOutcome
  cases houtcomes : w.outcomes with
  | nil =>
    refine ⟨?_,?_⟩
    · intro o w' h
      cases h
    · intro e w' h
      cases h
      exact hw
  | cons o rest =>
    refine ⟨?_,?_⟩
    · intro o' w' h
      cases h
      exact hw
    · intro e w' h
      cases h

lemma Slot.get_triple (slot : Slot β) :
    Triple (At d es) (Prog.read (fun w : World => slot.get w.disk) : Act (Option β))
      (fun content w => content = slot.get d ∧ At d es w) (fun _ => At d es) := by
  refine Triple.read ?_
  intro w hw
  exact ⟨by rw [hw.1],hw⟩

/-- A pinned read leaves the disk as it is. -/
lemma Slot.read_triple (slot : Slot β) (fits : β → Bool) :
    Triple (At d es) (slot.read fits) (fun r w => r.of (slot.get d) fits ∧
      At d es w) (fun _ => At d es) := by
  refine Triple.bind nextOutcome_triple (fun o => ?_)
  refine Triple.bind (slot.get_triple) (fun content => ?_)
  cases o with
  | done =>
    cases content with
    | none => exact Triple.pure (fun w hw => ⟨hw.1.symm,hw.2⟩)
    | some data =>
      refine Triple.pure ?_
      intro w hw
      refine ⟨?_,hw.2⟩
      by_cases hfits : fits data = true
      · rw [if_pos hfits]
        exact ⟨hw.1.symm,hfits⟩
      · rw [if_neg hfits]
        exact trivial
  | denied => exact Triple.pure (fun w hw => ⟨trivial,hw.2⟩)
  | failed => exact Triple.pure (fun w hw => ⟨trivial,hw.2⟩)
  | changed => exact Triple.pure (fun w hw => ⟨trivial,hw.2⟩)
  | torn size left => exact Triple.pure (fun w hw => ⟨trivial,hw.2⟩)

lemma Slot.set_triple (slot : Slot β) (content : Option β) (effect : String → Effect)
    {R : Unit → World → Prop} :
    Triple (At d es) (slot.set content effect) (fun _ => At (slot.put content d) (es ++
      [effect slot.name])) R := by
  refine Triple.modify ?_
  intro w hw
  exact ⟨by rw [hw.1],by rw [hw.2]⟩

/-- How a write can end: nothing changed and it failed, the data is there, or a new file is
unfinished. -/
inductive Slot.Wrote (slot : Slot β) (data : β) (d : Disk) (es : List Effect)
    (err : List HarnessFault) (w : World) : Prop
  | refused (herr : err = [.gateRefused slot.name] ∨ err = [.writing slot.name false])
      (hat : At d es w)
  | done (herr : err = [] ∨ err = [.writing slot.name true])
      (hat : At (slot.put (some data) d) (es ++ [.wrote slot.name]) w)
  | torn (size : ℕ) (hnew : slot.get d = none)
      (herr : ∃ changed, err = [.writing slot.name changed])
      (hat : At (slot.put (some (slot.torn size data)) d) (es ++ [.tore slot.name]) w)

/-- How a write is cut off: before it did anything, or with a new file unfinished. -/
inductive Slot.CutOff (slot : Slot β) (data : β) (d : Disk) (es : List Effect) (w : World) : Prop
  | before (hat : At d es w)
  | torn (size : ℕ) (hnew : slot.get d = none)
      (hat : At (slot.put (some (slot.torn size data)) d) (es ++ [.tore slot.name]) w)

lemma Slot.write_triple (slot : Slot β) (data : β) :
    Triple (At d es) (slot.write data) (slot.Wrote data d es) (fun _ => slot.CutOff data d es) := by
  refine Triple.bind (nextOutcome_triple.weaken (fun _ h => h) (fun _ _ h => h) (fun _ _ h =>
    .before h)) (fun o => ?_)
  refine Triple.bind (slot.get_triple.weaken (fun _ h => h) (fun _ _ h => h) (fun _ _ h =>
    .before h)) (fun content => ?_)
  cases o with
  | done =>
    refine Triple.bind ((slot.set_triple (some data) .wrote).weaken (fun _ h => h.2) (fun _ _ h =>
      h) (fun _ _ h => h)) ?_
    intro _
    exact Triple.pure (fun w hw => .done (.inl rfl) hw)
  | denied => exact Triple.pure (fun w hw => .refused (.inl rfl) hw.2)
  | failed => exact Triple.pure (fun w hw => .refused (.inr rfl) hw.2)
  | changed =>
    refine Triple.bind ((slot.set_triple (some data) .wrote).weaken (fun _ h => h.2) (fun _ _ h =>
      h) (fun _ _ h => h)) ?_
    intro _
    exact Triple.pure (fun w hw => .done (.inr rfl) hw)
  | torn size left =>
    cases content with
    | none =>
      refine Triple.bind (Q := fun _ w => slot.get d = none ∧
        At (slot.put (some (slot.torn size data)) d) (es ++ [.tore slot.name]) w) ?_ ?_
      · have hset : Triple (At d es) (slot.set (some (slot.torn size data)) .tore)
            (fun _ => At (slot.put (some (slot.torn size data)) d) (es ++ [.tore slot.name]))
            (fun _ => slot.CutOff data d es) := slot.set_triple (some (slot.torn size data)) .tore
        intro w hw
        refine ⟨fun a w' h => ⟨hw.1.symm,(hset w hw.2).1 a w' h⟩,(hset w hw.2).2⟩
      · intro _
        cases left with
        | ended => exact Triple.exit (fun w hw => .torn size hw.1 hw.2)
        | reported => exact Triple.pure (fun w hw => .torn size hw.1 ⟨true,rfl⟩ hw.2)
        | unreported => exact Triple.pure (fun w hw => .torn size hw.1 ⟨false,rfl⟩ hw.2)
    | some old =>
      refine Triple.bind (Q := fun _ => At d es) (Triple.pure (fun w hw => hw.2)) ?_
      intro _
      cases left with
      | ended => exact Triple.exit (fun w hw => .before hw)
      | reported => exact Triple.pure (fun w hw => .refused (.inr rfl) hw)
      | unreported => exact Triple.pure (fun w hw => .refused (.inr rfl) hw)

/-- How a removal can end. -/
inductive Slot.Removed (slot : Slot β) (d : Disk) (es : List Effect) (err : List HarnessFault)
    (w : World) : Prop
  | refused (herr : err = [.gateRefused slot.name] ∨ err = [.removing slot.name]) (hat : At d es w)
  | done (herr : err = [] ∨ err = [.removing slot.name])
      (hat : At (slot.put none d) (es ++ [.removed slot.name]) w)

lemma Slot.remove_triple (slot : Slot β) :
    Triple (At d es) slot.remove (slot.Removed d es) (fun _ => At d es) := by
  refine Triple.bind nextOutcome_triple (fun o => ?_)
  cases o with
  | done =>
    refine Triple.bind (slot.set_triple none .removed) ?_
    intro _
    exact Triple.pure (fun w hw => .done (.inl rfl) hw)
  | denied => exact Triple.pure (fun w hw => .refused (.inl rfl) hw)
  | failed => exact Triple.pure (fun w hw => .refused (.inr rfl) hw)
  | changed =>
    refine Triple.bind (slot.set_triple none .removed) ?_
    intro _
    exact Triple.pure (fun w hw => .done (.inr rfl) hw)
  | torn size left =>
    cases left with
    | ended => exact Triple.exit (fun w hw => hw)
    | reported => exact Triple.pure (fun w hw => .refused (.inr rfl) hw)
    | unreported => exact Triple.pure (fun w hw => .refused (.inr rfl) hw)

/-- Faults after which a recovery keeps the record. -/
def Plain (err : List HarnessFault) : Prop :=
  err.any HarnessFault.unusable = false ∧ err.any HarnessFault.modified = false

/-- The record stays, or it is the one with the nonce and is gone. -/
inductive RecordRemoved (nonce : Bytes) (d : Disk) (es : List Effect) (err : List HarnessFault)
    (w : World) : Prop
  | kept (hat : At d es w) (hplain : Plain err) (hdone : err = [] → ∀ raw, d.record = some raw →
      raw.own ≠ some nonce)
  | gone (raw : RecordText) (hraw : d.record = some raw) (hown : raw.own = some nonce)
      (hplain : Plain err)
      (hat : At { d with record := none } (es ++ [.removed harnessPendingFile]) w)

lemma removeRecord_triple (nonce : Bytes) :
    Triple (At d es) (removeRecord nonce) (RecordRemoved nonce d es) (fun _ => At d es) := by
  refine Triple.bind (Slot.pending.read_triple (fun _ => true)) (fun r => ?_)
  cases r with
  | refused =>
    refine Triple.pure fun w hw => ?_
    refine .kept hw.2 ⟨rfl,rfl⟩ fun herr => ?_
    cases herr
  | absent =>
    refine Triple.pure fun w hw => ?_
    refine .kept hw.2 ⟨rfl,rfl⟩ fun _ raw hraw => ?_
    have hnone : d.record = none := hw.1
    rw [hnone] at hraw
    cases hraw
  | ok raw =>
    refine Triple.ite ?_ ?_
    · intro hown w hw
      have hremove := Slot.pending.remove_triple w hw.2
      refine ⟨?_,hremove.2⟩
      intro err w' hrun
      cases hremove.1 err w' hrun with
      | refused herr hat =>
        cases herr with
        | inl herr =>
          subst herr
          exact .kept hat ⟨rfl,rfl⟩ (fun hnil => by cases hnil)
        | inr herr =>
          subst herr
          exact .kept hat ⟨rfl,rfl⟩ (fun hnil => by cases hnil)
      | done herr hat =>
        cases herr with
        | inl herr =>
          subst herr
          exact .gone raw hw.1.1 hown ⟨rfl,rfl⟩ hat
        | inr herr =>
          subst herr
          exact .gone raw hw.1.1 hown ⟨rfl,rfl⟩ hat
    · intro hother
      refine Triple.pure ?_
      intro w hw
      refine .kept hw.2 ⟨rfl,rfl⟩ ?_
      intro _ raw' hraw'
      have hraw : d.record = some raw := hw.1.1
      rw [hraw] at hraw'
      cases hraw'
      exact hother

end operations

section materialise
variable {m : HarnessMaterialisation} {before : Bytes} {d : Disk} {es : List Effect}

/-- Where the writing of a block can leave the disk: an unfinished new file, the files as they were,
or the block in place with its record. -/
inductive PutState (m : HarnessMaterialisation) (before : Bytes) (d : Disk) (w : World) : Prop
  | torn (hnew : d.files m.file = none) (htore : .tore m.file ∈ w.effects)
  | outside (hfiles : w.disk.files = d.files)
      (hrecord : w.disk.record = d.record ∨ w.disk.record = none ∨
        w.disk.record = some (.written m.pending) ∨
        w.disk.record = some .unreadable)
  | placed (hfiles : w.disk.files = Function.update d.files m.file
      (some (before ++ m.pending.appended)))
      (hrecord : w.disk.record = some (.written m.pending))

/-- A block is written as it was asked for, or not at all. -/
def Puts (m : HarnessMaterialisation) (before : Bytes) (d : Disk)
    (r : Option HarnessMaterialisation × List HarnessFault)
    (w : World) : Prop :=
  (∀ m', r.1 = some m' → m' = m) ∧ PutState m before d w

lemma puts_none (err : List HarnessFault) {w : World} (h : PutState m before d w) :
    Puts m before d (none,err) w := by
  refine ⟨?_,h⟩
  intro m' hm
  cases hm

lemma puts_some (err : List HarnessFault) {w : World} (h : PutState m before d w) :
    Puts m before d (some m,err) w := by
  refine ⟨?_,h⟩
  intro m' hm
  exact (Option.some.inj hm).symm

/-- Removing the record leaves a block that is not in place out. -/
lemma removeRecord_puts (err : List HarnessFault) {d' : Disk}
    (hkept : ∀ w, At d' es w → PutState m before d w)
    (hgone : ∀ w, At { d' with record := none } (es ++ [.removed harnessPendingFile]) w →
      PutState m before d w) :
    Triple (At d' es) (do
      let clear ← removeRecord m.pending.nonce
      pure (none,err ++ clear)) (Puts m before d) (fun _ => PutState m before d) := by
  refine Triple.bind ((removeRecord_triple m.pending.nonce).weaken (fun _ h => h) (fun _ _ h => h)
    (fun _ w h => hkept w h)) (fun clear => ?_)
  refine Triple.pure ?_
  intro w hw
  refine puts_none _ ?_
  cases hw with
  | kept hat _ _ => exact hkept w hat
  | gone raw _ _ _ hat => exact hgone w hat

/-- The record was written or is unfinished, and the file was not reached. -/
lemma removeRecord_outside (err : List HarnessFault) {d' : Disk} (hfiles : d'.files = d.files)
    (hrecord : d'.record = some (.written m.pending) ∨ d'.record = some .unreadable) :
    Triple (At d' es) (do
      let clear ← removeRecord m.pending.nonce
      pure (none,err ++ clear)) (Puts m before d) (fun _ => PutState m before d) := by
  refine removeRecord_puts err ?_ ?_
  · intro w hat
    refine .outside (by rw [hat.1,hfiles]) ?_
    rw [hat.1]
    exact .inr (.inr hrecord)
  · intro w hat
    exact .outside (by rw [hat.1,← hfiles]) (.inr (.inl (by rw [hat.1])))

lemma mem_effects_of_at {d' : Disk} {e : Effect} {w : World} (he : e ∈ es) (hat : At d' es w) :
    e ∈ w.effects := by
  rw [hat.2]
  exact he

lemma afterUnknownWrite_torn (err : List HarnessFault) {d' : Disk} (hnew : d.files m.file = none)
    (htore : .tore m.file ∈ es) :
    Triple (At d' es) (m.afterUnknownWrite err) (Puts m before d) (fun _ =>
      PutState m before d) := by
  have htorn : ∀ d' w, At d' es w → PutState m before d w :=
    fun d' w hat => .torn hnew (mem_effects_of_at htore hat)
  have hremove : Triple (At d' es) (do
      let clear ← removeRecord m.pending.nonce
      pure (none,err ++ clear)) (Puts m before d) (fun _ => PutState m before d) :=
    removeRecord_puts err (htorn d') (fun w hat =>
      .torn hnew (mem_effects_of_at (List.mem_append_left _ htore) hat))
  refine Triple.bind (((Slot.file m.file).read_triple _).weaken (fun _ h => h) (fun _ _ h => h)
    (fun _ w h => htorn d' w h)) (fun r => ?_)
  cases r with
  | refused => exact Triple.pure (fun w hw => puts_some _ (htorn d' w hw.2))
  | absent => exact hremove.weaken (fun _ h => h.2) (fun _ _ h => h) (fun _ _ h => h)
  | ok current =>
    refine Triple.ite ?_ ?_
    · intro _
      exact Triple.pure (fun w hw => puts_some _ (htorn d' w hw.2))
    · intro _
      exact hremove.weaken (fun _ h => h.2) (fun _ _ h => h) (fun _ _ h => h)

/-- A block that is in place is found there, or its record stays. -/
lemma afterUnknownWrite_placed (err : List HarnessFault) {d' : Disk}
    (hfiles : d'.files = Function.update d.files m.file (some (before ++ m.pending.appended)))
    (hrecord : d'.record = some (.written m.pending)) :
    Triple (At d' es) (m.afterUnknownWrite err) (Puts m before d) (fun _ =>
      PutState m before d) := by
  have hplaced : ∀ w, At d' es w → PutState m before d w :=
    fun w hat => .placed (by rw [hat.1,hfiles]) (by rw [hat.1,hrecord])
  have hget : (Slot.file m.file).get d' = some (before ++ m.pending.appended) := by
    change d'.files m.file = _
    rw [hfiles,Function.update_self]
  refine Triple.bind (((Slot.file m.file).read_triple _).weaken (fun _ h => h) (fun _ _ h => h)
    (fun _ w h => hplaced w h)) (fun r => ?_)
  cases r with
  | refused => exact Triple.pure (fun w hw => puts_some _ (hplaced w hw.2))
  | absent =>
    intro w hw
    have hnone : (Slot.file m.file).get d' = none := hw.1
    rw [hget] at hnone
    cases hnone
  | ok current =>
    refine Triple.ite ?_ ?_
    · intro _
      exact Triple.pure (fun w hw => puts_some _ (hplaced w hw.2))
    · intro hno w hw
      have hcurrent : (Slot.file m.file).get d' = some current := hw.1.1
      rw [hget] at hcurrent
      cases hcurrent
      exact absurd (contains_iff.mpr (List.suffix_append before m.pending.appended).isInfix) hno

lemma record_outside {d' : Disk} {w : World} (hat : At d' es w) (hfiles : d'.files = d.files)
    (hrecord : d'.record = some (.written m.pending) ∨ d'.record = some .unreadable) :
    PutState m before d w := by
  refine .outside (by rw [hat.1,hfiles]) ?_
  rw [hat.1]
  exact .inr (.inr hrecord)

/-- The block write, once the record is written. -/
lemma putBlock_triple {d' : Disk} (hfiles : d'.files = d.files)
    (hrecord : d'.record = some (.written m.pending)) :
    Triple (At d' es) (do
      let writeErr ← (Slot.file m.file).write (before ++ m.pending.appended)
      if writeErr = [] then pure (some m,[])
      else if ¬ writeMayHaveChanged writeErr then do
        let err ← removeRecord m.pending.nonce
        pure (none,writeErr ++ err)
      else m.afterUnknownWrite writeErr) (Puts m before d) (fun _ => PutState m before d) := by
  have hget : (Slot.file m.file).get d' = d.files m.file := by
    change d'.files m.file = _
    rw [hfiles]
  refine Triple.bind (((Slot.file m.file).write_triple _).weaken (fun _ h => h) (fun _ _ h => h) ?_)
    (fun err => ?_)
  · intro _ w hw
    cases hw with
    | before hat => exact record_outside hat hfiles (.inl hrecord)
    | torn size hnew hat =>
      exact .torn (hget ▸ hnew) (mem_effects_of_at
        (List.mem_append_right _ (List.mem_singleton_self _)) hat)
  · intro w hw
    have hplaced : ((Slot.file m.file).put (some (before ++ m.pending.appended)) d').files =
        Function.update d.files m.file (some (before ++ m.pending.appended)) := by
      change Function.update d'.files m.file _ = _
      rw [hfiles]
    have hwritten : ((Slot.file m.file).put (some (before ++ m.pending.appended)) d').record = some
      (.written m.pending) := hrecord
    cases hw with
    | refused herr hat =>
      refine (?_ : Triple (At d' es) _ (Puts m before d) (fun _ => PutState m before d)) w hat
      have hrun : Triple (At d' es) _ (Puts m before d) (fun _ => PutState m before d) :=
        removeRecord_outside err hfiles (.inl hrecord)
      cases herr with
      | inl herr => subst herr; exact hrun
      | inr herr => subst herr; exact hrun
    | done herr hat =>
      cases herr with
      | inl herr =>
        subst herr
        exact Triple.pure (fun w hat =>
          puts_some _ (.placed (by rw [hat.1,hplaced]) (by rw [hat.1,hwritten]))) w hat
      | inr herr =>
        subst herr
        exact afterUnknownWrite_placed _ hplaced hwritten w hat
    | torn size hnew herr hat =>
      obtain ⟨changed,herr⟩ := herr
      subst herr
      have htore : Effect.tore m.file ∈ es ++ [.tore (Slot.file m.file).name] :=
        List.mem_append_right _ (List.mem_singleton_self _)
      cases changed with
      | true => exact afterUnknownWrite_torn _ (hget ▸ hnew) htore w hat
      | false =>
        exact removeRecord_puts _ (fun w hat => .torn (hget ▸ hnew) (mem_effects_of_at htore hat))
          (fun w hat => .torn (hget ▸ hnew)
            (mem_effects_of_at (List.mem_append_left _ htore) hat)) w hat

lemma put_triple (m : HarnessMaterialisation) (before : Bytes) :
    Triple (At d es) (m.put before) (Puts m before d) (fun _ => PutState m before d) := by
  have hkept : ∀ w, At d es w → PutState m before d w :=
    fun w hat => .outside (by rw [hat.1]) (.inl (by rw [hat.1]))
  refine Triple.bind ((Slot.pending.write_triple _).weaken (fun _ h => h) (fun _ _ h => h) ?_)
    (fun err => ?_)
  · intro _ w hw
    cases hw with
    | before hat => exact hkept w hat
    | torn size _ hat => exact record_outside hat rfl (.inr rfl)
  · intro w hw
    have hfiles : (Slot.pending.put (some (.written m.pending)) d).files = d.files := rfl
    have hrecord : (Slot.pending.put (some (.written m.pending)) d).record = some
      (.written m.pending) := rfl
    cases hw with
    | refused herr hat =>
      refine (?_ : Triple (At d es) _ (Puts m before d) (fun _ => PutState m before d)) w hat
      have hrun : ∀ err, Triple (At d es) (pure (none,err) : Act _) (Puts m before d) (fun _ =>
        PutState m before d) :=
        fun err => Triple.pure (fun w hat => puts_none _ (hkept w hat))
      cases herr with
      | inl herr => subst herr; exact hrun _
      | inr herr => subst herr; exact hrun _
    | done herr hat =>
      cases herr with
      | inl herr =>
        subst herr
        exact putBlock_triple hfiles hrecord w hat
      | inr herr =>
        subst herr
        exact removeRecord_outside _ hfiles (.inl hrecord) w hat
    | torn size _ herr hat =>
      obtain ⟨changed,herr⟩ := herr
      subst herr
      have hfiles : (Slot.pending.put (some .unreadable) d).files = d.files := rfl
      have hrecord : (Slot.pending.put (some .unreadable) d).record = some .unreadable := rfl
      cases changed with
      | true => exact removeRecord_outside _ hfiles (.inr hrecord) w hat
      | false =>
        exact Triple.pure (fun w hat =>
          puts_none _ (record_outside hat hfiles (.inr hrecord))) w hat

/-- What a materialisation is of, when the record of its block is one that can be restored. -/
structure Accepted (provider : String) (spec : HarnessSpec) (nonce : Option Bytes) (d : Disk)
    (m : HarnessMaterialisation) : Prop where
  file : harnessInstructionFile provider = some m.file
  nonce : nonce = some m.pending.nonce
  block : ∃ block, renderHarnessBlock spec m.pending.nonce = .ok block ∧ block ≠ [] ∧
    m.pending = PendingRestore.of m.file m.pending.nonce block (d.files m.file)
  valid : m.pending.valid = none
  fits : m.pending.fitsRestoreBound = none

/-- How a materialisation ends or is cut off. -/
def Materialises (provider : String) (spec : HarnessSpec) (nonce : Option Bytes) (d : Disk)
    (w : World) : Prop :=
  w.disk = d ∨ ∃ m, Accepted provider spec nonce d m ∧ PutState m ((d.files m.file).getD []) d w

lemma materialises_none (provider : String) (spec : HarnessSpec) (nonce : Option Bytes)
    (err : List HarnessFault) :
    Triple (At d es) (pure (none,err) : Act (Option HarnessMaterialisation × List HarnessFault))
      (fun r w => (∀ m, r.1 = some m → Accepted provider spec nonce d m) ∧
        Materialises provider spec nonce d w)
      (fun _ => Materialises provider spec nonce d) := by
  refine Triple.pure ?_
  intro w hat
  refine ⟨?_,.inl hat.1⟩
  intro m hm
  cases hm

lemma materialiseBlock_triple {provider : String} {spec : HarnessSpec} {nonce block : Bytes}
    {file : String}
    {content : Option Bytes} (hfile : harnessInstructionFile provider = some file)
    (hblock : renderHarnessBlock spec nonce = .ok block) (hne : block ≠ [])
    (hcontent : content = d.files file) :
    Triple (At d es) (materialiseBlock file nonce block content)
      (fun r w => (∀ m, r.1 = some m → Accepted provider spec (some nonce) d m) ∧
        Materialises provider spec (some nonce) d w)
      (fun _ => Materialises provider spec (some nonce) d) := by
  simp only [materialiseBlock]
  cases hvalid : (PendingRestore.of file nonce block content).valid with
  | some why => exact materialises_none _ _ _ _
  | none =>
    cases hfits : (PendingRestore.of file nonce block content).fitsRestoreBound with
    | some fault => exact materialises_none _ _ _ _
    | none =>
      have hacc : Accepted provider spec (some nonce) d ⟨file,
        PendingRestore.of file nonce block content⟩ :=
        ⟨hfile,rfl,⟨block,hblock,hne,by rw [hcontent]; rfl⟩,hvalid,hfits⟩
      refine (put_triple _ _).weaken (fun _ h => h) ?_ ?_
      · intro r w hw
        refine ⟨?_,.inr ⟨_,hacc,hcontent ▸ hw.2⟩⟩
        intro m hm
        rw [hw.1 m hm]
        exact hacc
      · intro _ w hw
        exact .inr ⟨_,hacc,hcontent ▸ hw⟩

lemma materialiseHarness_triple (provider : String) (spec : HarnessSpec) (nonce : Option Bytes) :
    Triple (At d es) (materialiseHarness provider spec nonce)
      (fun r w => (∀ m, r.1 = some m → Accepted provider spec nonce d m) ∧
        Materialises provider spec nonce d w)
      (fun _ => Materialises provider spec nonce d) := by
  unfold materialiseHarness
  cases hfile : harnessInstructionFile provider with
  | none => exact materialises_none _ _ _ _
  | some file =>
    cases nonce with
    | none => exact materialises_none _ _ _ _
    | some n =>
      cases hblock : renderHarnessBlock spec n with
      | error fault =>
        simp only [hblock]
        exact materialises_none _ _ _ _
      | ok block =>
        cases block with
        | nil =>
          simp only [hblock]
          exact materialises_none _ _ _ _
        | cons b bs =>
          simp only [hblock]
          refine Triple.bind (((Slot.file file).read_triple _).weaken (fun _ h => h)
            (fun _ _ h => h)
            (fun _ w h => .inl h.1)) (fun r => ?_)
          cases r with
          | refused =>
            exact (materialises_none _ _ _ _).weaken (fun _ h => h.2) (fun _ _ h =>
              h) (fun _ _ h => h)
          | absent =>
            intro w hw
            exact materialiseBlock_triple hfile hblock (by simp) hw.1.symm w hw.2
          | ok text =>
            intro w hw
            exact materialiseBlock_triple hfile hblock (by simp) hw.1.1.symm w hw.2

end materialise

end Manvi.Managed
