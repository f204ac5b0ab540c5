import Manvi.Session.Trim

/-! Saving and loading one session by one run, and the count of trimmed turns in its header. The
encodings, the digest and the size of a file are parameters; time is a number, and only a file
from elsewhere lacks a creation date. -/
namespace Manvi.Session
open Manvi.Encoding

/-- The document a save writes. -/
structure Header where
  createdAt : Option ℕ
  updatedAt : ℕ
  turns : ℕ
  trimmedTurns : ℕ
  oversize : Bool
  events : List Event

/-- What a store remembers of the file it last read or wrote. -/
structure HeaderMeta where
  createdAt : Option ℕ
  trimmedTurns : ℕ

structure Encoder where
  event : Event → List UInt8
  digest : Header → String
  size : Header → ℕ

/-- The newest generation of the session, and what this run has seen of it. -/
structure Store where
  maxBytes : ℤ
  current : Option (ℕ × Header)
  seen : Option String
  remembered : Option HeaderMeta

def defaultMaxBytes : ℕ := 8*2^20

def maxLoadBytes : ℕ := 8*defaultMaxBytes

namespace Store

/-- A file without a creation date is not remembered. -/
def rememberMeta (m : HeaderMeta) : Option HeaderMeta := if m.createdAt.isNone then none else some m

/-- The creation date and the trimmed turns a save carries over. -/
def carriedOver (s : Store) (now : ℕ) : HeaderMeta :=
  match s.current with
  | none => ⟨some now,0⟩
  | some (_,existing) =>
    let doc := s.remembered.getD ⟨existing.createdAt,existing.trimmedTurns⟩
    if doc.createdAt.isNone then ⟨some now,0⟩ else doc

/-- Where a save cuts the log: the first event kept, the turns dropped, and whether it is still
too long. -/
def cut (enc : Encoder) (s : Store) (log : Log) : ℕ × ℕ × Bool :=
  trimEncoded log.persistable (log.persistable.map enc.event) s.maxBytes

/-- The document of the next generation. -/
def nextHeader (enc : Encoder) (s : Store) (now : ℕ) (log : Log) : Header :=
  let carried := s.carriedOver now
  let kept := log.persistable.drop (s.cut enc log).1
  ⟨carried.createdAt,now,countTurns kept,carried.trimmedTurns+(s.cut enc log).2.1,
    (s.cut enc log).2.2,kept⟩

/-- Write the log as the session's next generation. -/
def save (enc : Encoder) (s : Store) (now : ℕ) (log : Log) : Except String (Store × Header) :=
  if log.persistable.isEmpty then .error "session: refusing to save a log with no events"
  else if s.current.any (fun c => s.seen ≠ some (enc.digest c.2)) then
    .error "session: it no longer holds the contents this run loaded"
  else
    let next := s.nextHeader enc now log
    if enc.size next > maxLoadBytes then .error "session: too large to save"
    else .ok ({ s with
      current := some ((s.current.map Prod.fst).getD 0+1,next)
      seen := some (enc.digest next)
      remembered := rememberMeta ⟨next.createdAt,next.trimmedTurns⟩ },next)

/-- Restore the session's log from its newest generation. -/
def load (enc : Encoder) (s : Store) : Except String (Store × Log) :=
  match s.current with
  | none => .error "session: not found"
  | some (_,doc) =>
    if doc.events.isEmpty then .error "it carries no events"
    else do
      let log ← restoreLog doc.events
      return ({ s with
        seen := some (enc.digest doc)
        remembered := rememberMeta ⟨doc.createdAt,doc.trimmedTurns⟩ },log)

end Store

/-! A session over saves and loads. -/

/-- A run's view of a session. The last three fields only count: the turn/start events the
session has recorded, those it had recorded at its last save, and the turns that saves have
dropped of the in-memory log since it was created or loaded. -/
structure SessionState where
  store : Store
  log : Log
  recorded : ℕ
  saved : ℕ
  shed : ℕ

inductive SessionAct where
  | call (c : Call)
  | save (now : ℕ)
  | load
  | reopen (maxBytes : ℤ)

namespace SessionState

/-- A load gives up what was recorded and not saved; reopening is a new store on the files. -/
def act (enc : Encoder) (s : SessionState) : SessionAct → SessionState
  | .call c => { s with
    log := s.log.after c
    recorded := s.recorded+countTurns ((s.log.after c).events.drop s.log.events.length) }
  | .save now => match s.store.save enc now s.log with
    | .ok (store,_) => { s with
      store := store, saved := s.recorded, shed := s.shed+(s.store.cut enc s.log).2.1 }
    | .error _ => s
  | .load => match s.store.load enc with
    | .ok (store,log) => ⟨store,log,s.saved,s.saved,0⟩
    | .error _ => s
  | .reopen maxBytes => { s with store := ⟨maxBytes,s.store.current,none,none⟩ }

def run (enc : Encoder) (s : SessionState) (acts : List SessionAct) : SessionState :=
  acts.foldl (act enc) s

/-- A save that succeeds here writes a header that accounts for every turn recorded. -/
def ExactAt (enc : Encoder) (s : SessionState) (now : ℕ) : Prop :=
  ∀ store doc, s.store.save enc now s.log = .ok (store,doc) →
    doc.trimmedTurns+countTurns doc.events = s.recorded

/-- Every save of the run writes such a header. -/
def ExactRun (enc : Encoder) (s : SessionState) (acts : List SessionAct) : Prop :=
  ∀ before now after, acts = before ++ .save now :: after → (s.run enc before).ExactAt enc now

/-- No save of the run succeeds on an in-memory log that an earlier save has dropped a turn of. -/
def UnshedRun (enc : Encoder) (s : SessionState) (acts : List SessionAct) : Prop :=
  ∀ before now after, acts = before ++ .save now :: after →
    ((s.run enc before).store.save enc now (s.run enc before).log).toOption.isSome →
      (s.run enc before).shed = 0

end SessionState

/-- A session as a run begins it: nothing stored, and the log it will save. -/
def beginSession (maxBytes : ℤ) (log : Log) : SessionState :=
  ⟨⟨maxBytes,none,none,none⟩,log,countTurns log.events,0,0⟩

/-! What a save writes. -/

lemma countTurns_persistable (l : Log) : countTurns l.persistable = countTurns l.events := by
  rw [countTurns,countTurns,Log.persistable,List.countP_filter]
  apply List.countP_congr
  intro e _
  cases e.type <;> simp

/-- A cut divides the turns of the log into those dropped and those kept. -/
lemma cut_turns (enc : Encoder) (s : Store) (log : Log) :
    (s.cut enc log).2.1+countTurns (log.persistable.drop (s.cut enc log).1) =
      countTurns log.events := by
  have hdropped := (trimEncoded_spec log.persistable (log.persistable.map enc.event) s.maxBytes).1
  have hsplit := countTurns_append (log.persistable.take (s.cut enc log).1)
    (log.persistable.drop (s.cut enc log).1)
  rw [List.take_append_drop,countTurns_persistable] at hsplit
  rw [hsplit]
  congr 1
  exact hdropped.symm

lemma save_ok {enc : Encoder} {s s' : Store} {now : ℕ} {log : Log} {doc : Header}
    (h : s.save enc now log = .ok (s',doc)) : doc = s.nextHeader enc now log ∧
      s' = ⟨s.maxBytes,some ((s.current.map Prod.fst).getD 0+1,doc),some (enc.digest doc),
        Store.rememberMeta ⟨doc.createdAt,doc.trimmedTurns⟩⟩ := by
  unfold Store.save at h
  dsimp only at h
  split_ifs at h
  cases h
  exact ⟨rfl,rfl⟩

lemma load_ok {enc : Encoder} {s s' : Store} {log : Log} (h : s.load enc = .ok (s',log)) :
    ∃ g doc, s.current = some (g,doc) ∧ log.events = doc.events ∧
      s' = ⟨s.maxBytes,s.current,some (enc.digest doc),
        Store.rememberMeta ⟨doc.createdAt,doc.trimmedTurns⟩⟩ := by
  unfold Store.load at h
  split at h
  · cases h
  · next g doc hc =>
    split_ifs at h
    obtain ⟨l,hl,h⟩ := bind_ok h
    cases h
    exact ⟨g,doc,hc,(restoreLog_coherent hl).2,rfl⟩

lemma after_events (l : Log) (c : Call) : ∃ new, (l.after c).events = l.events ++ new := by
  have hread : l.afterRead.events = l.events := by
    unfold Log.afterRead Log.warm
    by_cases hv : l.proj.valid
    · rw [if_pos hv]
    · rw [if_neg hv]
      cases rebuildProjection l.events <;> rfl
  cases c with
  | append t payload =>
    cases h : l.append t payload with
    | error e => exact ⟨[],by simp only [Log.after,h,List.append_nil]⟩
    | ok r =>
      obtain ⟨_,ha⟩ := append_ok h
      refine ⟨[r.2],?_⟩
      simp only [Log.after,h]
      exact ha.events
  | deriveMessages | compactedResults | holdsResults | ignoredCompactions | resultSeqs =>
    exact ⟨[],by rw [List.append_nil]; exact hread⟩
  | compactedCalls | setScrubber | setSensitiveScrubber => exact ⟨[],by rw [List.append_nil]; rfl⟩

/-- What a document says of itself. -/
def Header.headerMeta (doc : Header) : HeaderMeta := ⟨doc.createdAt,doc.trimmedTurns⟩

/-- How many turns the newest generation says were trimmed. -/
def Store.trimmedTurns (s : Store) : ℕ := (s.current.map (fun c => c.2.trimmedTurns)).getD 0

/-- The newest generation has a date, and what is remembered of it is what it says. -/
def Store.Dated (s : Store) : Prop := ∀ g doc, s.current = some (g,doc) →
  doc.createdAt.isSome = true ∧ ∀ m, s.remembered = some m → m = doc.headerMeta

namespace Store.Dated
variable {s : Store}

lemma carriedOver (hs : s.Dated) (now : ℕ) : (s.carriedOver now).createdAt.isSome = true ∧
    (s.carriedOver now).trimmedTurns = s.trimmedTurns := by
  unfold Store.carriedOver Store.trimmedTurns
  cases hc : s.current with
  | none => exact ⟨rfl,rfl⟩
  | some c =>
    obtain ⟨hdate,hmeta⟩ := hs c.1 c.2 hc
    have hdoc : s.remembered.getD ⟨c.2.createdAt,c.2.trimmedTurns⟩ = c.2.headerMeta := by
      cases hr : s.remembered with
      | none => rfl
      | some m => exact hmeta m hr
    have hnone : ¬ c.2.headerMeta.createdAt.isNone = true := by
      rw [← Option.not_isSome,Header.headerMeta,hdate]
      simp
    dsimp only
    rw [hdoc,if_neg hnone]
    exact ⟨hdate,rfl⟩

lemma written (m : ℤ) (g : ℕ) (seen : Option String) {doc : Header}
    (hdate : doc.createdAt.isSome = true) :
    Store.Dated ⟨m,some (g,doc),seen,Store.rememberMeta doc.headerMeta⟩ := by
  intro g' doc' hc
  cases hc
  refine ⟨hdate,?_⟩
  intro found hm
  change Store.rememberMeta doc.headerMeta = some found at hm
  unfold Store.rememberMeta at hm
  split_ifs at hm
  exact (Option.some.inj hm).symm

end Store.Dated

namespace SessionState
variable {enc : Encoder} {s : SessionState}

/-- The trimmed turns on file, with the turns of the in-memory log, are what the session recorded
and what saves dropped of that log; the file itself is exact. -/
structure Accounted (s : SessionState) : Prop where
  dated : s.store.Dated
  carried : s.store.trimmedTurns+countTurns s.log.events = s.recorded+s.shed
  exact : ∀ g doc, s.store.current = some (g,doc) →
    doc.trimmedTurns+countTurns doc.events = s.saved

namespace Accounted

lemma begin (maxBytes : ℤ) (log : Log) : (beginSession maxBytes log).Accounted where
  dated := by
    intro g doc h
    cases h
  carried := by simp [beginSession,Store.trimmedTurns]
  exact := by
    intro g doc h
    cases h

/-- What a save writes is off by the turns that earlier saves dropped of the same log. -/
lemma written (hs : s.Accounted) (enc : Encoder) (now : ℕ) :
    (s.store.nextHeader enc now s.log).trimmedTurns+
    countTurns (s.store.nextHeader enc now s.log).events = s.recorded+s.shed := by
  have hcut := cut_turns enc s.store s.log
  have hcarried := hs.carried
  have htrimmed := (hs.dated.carriedOver now).2
  simp only [Store.nextHeader]
  omega

lemma exactAt_iff (hs : s.Accounted) (now : ℕ) : s.ExactAt enc now ↔
    ((s.store.save enc now s.log).toOption.isSome → s.shed = 0) := by
  have hw := hs.written enc now
  constructor
  · intro h hok
    cases hsave : s.store.save enc now s.log with
    | error e =>
      rw [hsave] at hok
      cases hok
    | ok r =>
      have hexact := h r.1 r.2 hsave
      rw [(save_ok hsave).1] at hexact
      omega
  · intro h store doc hsave
    have hshed := h (by rw [hsave]; rfl)
    rw [(save_ok hsave).1]
    omega

lemma act (hs : s.Accounted) (a : SessionAct) (h : ∀ now, a = .save now → s.ExactAt enc now) :
    (s.act enc a).Accounted := by
  cases a with
  | call c =>
    obtain ⟨new,hnew⟩ := after_events s.log c
    refine ⟨hs.dated,?_,hs.exact⟩
    have hcarried := hs.carried
    simp only [SessionState.act,hnew,List.drop_left,countTurns_append]
    omega
  | save now =>
    cases hsave : s.store.save enc now s.log with
    | error e =>
      simp only [SessionState.act,hsave]
      exact hs
    | ok r =>
      obtain ⟨store,doc⟩ := r
      have hexact := h now rfl store doc hsave
      obtain ⟨hdoc,rfl⟩ := save_ok hsave
      simp only [SessionState.act,hsave]
      refine ⟨.written _ _ _ ?_,?_,?_⟩
      · rw [hdoc]
        exact (hs.dated.carriedOver now).1
      · have hcarried := hs.carried
        have htrimmed := (hs.dated.carriedOver now).2
        simp only [Store.trimmedTurns,Option.map_some,Option.getD_some,hdoc,Store.nextHeader]
        simp only [Store.trimmedTurns] at htrimmed hcarried
        omega
      · intro g doc' hc
        cases hc
        exact hexact
  | load =>
    cases hload : s.store.load enc with
    | error e =>
      simp only [SessionState.act,hload]
      exact hs
    | ok r =>
      obtain ⟨store,log⟩ := r
      obtain ⟨g,doc,hc,hevents,rfl⟩ := load_ok hload
      simp only [SessionState.act,hload]
      have hexact := hs.exact g doc hc
      refine ⟨?_,?_,hs.exact⟩
      · rw [hc]
        exact .written _ _ _ (hs.dated g doc hc).1
      · simp only [Store.trimmedTurns,hc,Option.map_some,Option.getD_some,hevents]
        omega
  | reopen maxBytes =>
    refine ⟨?_,hs.carried,hs.exact⟩
    intro g doc hc
    refine ⟨(hs.dated g doc hc).1,?_⟩
    intro m hm
    cases hm

/-- A session stays accounted for over a run whose saves are exact. -/
lemma run (hs : s.Accounted) (acts : List SessionAct) (h : ∀ before now after,
    acts = before ++ .save now :: after → (s.run enc before).Accounted →
      (s.run enc before).ExactAt enc now) : (s.run enc acts).Accounted := by
  induction acts using List.reverseRecOn with
  | nil => exact hs
  | append_singleton acts a ih =>
    have hacts : (s.run enc acts).Accounted := by
      apply ih
      intro before now after hsplit
      exact h before now (after ++ [a]) (by rw [hsplit,List.append_assoc,List.cons_append])
    rw [SessionState.run,List.foldl_append]
    apply hacts.act a
    rintro now rfl
    exact h acts now [] rfl hacts

end Accounted

end SessionState

/-- Over every history of a session, each save's header accounts for every turn the session has
recorded exactly when no save follows one that dropped a turn of the same in-memory log. -/
theorem trim_accounting_exact_iff (enc : Encoder) (maxBytes : ℤ) (log : Log)
    (acts : List SessionAct) : (beginSession maxBytes log).ExactRun enc acts ↔
      (beginSession maxBytes log).UnshedRun enc acts := by
  have hbegin := SessionState.Accounted.begin maxBytes log
  constructor
  · intro h before now after hsplit
    apply ((hbegin.run before ?_).exactAt_iff now).mp (h before now after hsplit)
    intro b n a hb _
    exact h b n (a ++ .save now :: after) (by rw [hsplit,hb,List.append_assoc,List.cons_append])
  · intro h before now after hsplit
    apply ((hbegin.run before ?_).exactAt_iff now).mpr (h before now after hsplit)
    intro b n a hb hacc
    exact (hacc.exactAt_iff n).mpr (h b n (a ++ .save now :: after)
      (by rw [hsplit,hb,List.append_assoc,List.cons_append]))

/-- Every event encoded in a hundred bytes, and every document digested to its date. -/
def hundredBytes : Encoder :=
  ⟨fun _ => List.replicate 100 0,fun doc => toString doc.updatedAt,
    fun doc => 235+101*doc.events.length⟩

/-- Three turns, saved twice from the same in-memory log. -/
def savedTwice : List SessionAct :=
  [.call (.append .turnStart none),.call (.append .turnStart none),.call (.append .turnStart none),
   .save 1,.save 2]

/-- The second save drops the same turn as the first, and counts it again. -/
theorem second_save_recounts : ¬ (beginSession 250 newLog).ExactRun hundredBytes savedTwice ∧
    ((beginSession 250 newLog).run hundredBytes savedTwice).recorded = 3 ∧
    ((beginSession 250 newLog).run hundredBytes savedTwice).store.current.map
      (fun c => (c.1,c.2.trimmedTurns,countTurns c.2.events)) = some (2,2,2) := by
  refine ⟨?_,by decide +kernel,by decide +kernel⟩
  intro h
  have hsave : (((beginSession 250 newLog).run hundredBytes (savedTwice.take 4)).store.save
      hundredBytes 2 ((beginSession 250 newLog).run hundredBytes
        (savedTwice.take 4)).log).toOption.map
        (fun r => r.2.trimmedTurns+countTurns r.2.events) = some 4 := by decide +kernel
  cases hr : ((beginSession 250 newLog).run hundredBytes (savedTwice.take 4)).store.save
      hundredBytes 2 ((beginSession 250 newLog).run hundredBytes (savedTwice.take 4)).log with
  | error e =>
    rw [hr] at hsave
    cases hsave
  | ok r =>
    rw [hr] at hsave
    have hexact := h (savedTwice.take 4) 2 [] rfl r.1 r.2 hr
    have hfour : r.2.trimmedTurns+countTurns r.2.events = 4 := Option.some.inj hsave
    have hthree : ((beginSession 250 newLog).run hundredBytes (savedTwice.take 4)).recorded =
      3 := by
      decide
    omega

end Manvi.Session
