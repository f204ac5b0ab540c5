import Manvi.Encoding.Sha256
import Manvi.Encoding.Table
import Manvi.Encoding.Utf8
import Manvi.Serve.Server
import Manvi.Session.Visible

/-! The scans of a process: one for each root at a time, a few at once, and what earlier ones have
reported. -/
namespace Manvi.Scan
open Manvi.Encoding Manvi.Serve

def scanDefaultCap : ℤ := 25

def scanMaxCap : ℤ := 100

def scanMaxActive : ℤ := 2

def scanRetained : ℕ := 32

def scanKnownRoots : ℕ := 32

inductive ScanState where
  | running
  | done
  | deadline
  | cancelled
  | failed
  deriving Repr, DecidableEq

/-- How far one category got. -/
structure Coverage where
  category : String
  status : String
  deriving Repr, DecidableEq

structure Finding where
  category : String
  key : String
  deriving Repr, DecidableEq

inductive ProposalStatus where
  | new
  | known
  | attached
  deriving Repr, DecidableEq

structure Proposal where
  fingerprint : String
  category : String
  status : ProposalStatus
  attachedItemID : String
  deriving Repr, DecidableEq

structure View where
  scanID : String
  state : ScanState
  repoRoot : String
  since : String
  maxProposals : ℤ
  joined : Bool
  error : String
  coverage : List Coverage
  complete : Bool
  boardComplete : Bool
  newCount : ℕ
  attachedCount : ℕ
  overCap : ℕ
  proposals : List Proposal
  deriving Repr, DecidableEq

/-- A scan with its goroutine; stopping is set when Cancel counts it, ended when its goroutine is
through. -/
structure Job where
  view : View
  stopping : Bool
  ended : Bool
  deriving Repr, DecidableEq

/-- The scans in the order they were started; the maps hold their places. -/
structure Runner where
  closed : Bool
  scans : List Job
  jobs : Table String ℕ
  active : Table String ℕ
  stopping : ℤ
  order : List String
  known : Table String (List String)
  roots : List String

def Runner.new : Runner := ⟨false,[],.empty,.empty,0,[],.empty,[]⟩

def newView (id root since : String) (maxProposals : ℤ) : View :=
  ⟨id,.running,root,since,maxProposals,false,"",[],false,false,0,0,0,[]⟩

def Runner.scan (r : Runner) (i : ℕ) : Job := (r.scans[i]?).getD ⟨newView "" "" "" 0,false,true⟩

def busy (message : String) : Failure := ⟨"E_BUSY",message,true⟩

/-- Join the scan of a root, or start one. -/
def Runner.claim (r : Runner) (id root since : String) (maxProposals : ℤ) :
    Runner × Except Failure View :=
  if r.closed then (r,.error (busy "the scan runner is shutting down"))
  else match r.active.get root with
    | some i =>
      let v := (r.scan i).view
      if v.since ≠ since ∨ v.maxProposals ≠ maxProposals then
        (r,.error (busy "a scan of this root with different parameters is running; read it with work.scan.get or cancel it"))
      else (r,.ok { v with joined := true })
    | none =>
      if scanMaxActive ≤ r.active.size+r.stopping then
        (r,.error (busy "too many scans are running"))
      else
        let v := newView id root since maxProposals
        ({ r with
          scans := r.scans ++ [⟨v,false,false⟩]
          jobs := r.jobs.set id r.scans.length
          active := r.active.set root r.scans.length },.ok v)

/-- A request for a scan of a repository that is there, with an index that can be used. -/
def Runner.start (r : Runner) (id root since : String) (maxProposals : ℤ) :
    Runner × Except Failure View :=
  if maxProposals < 0 ∨ scanMaxCap < maxProposals then
    (r,.error (badRequest "max_proposals must be in 0..100 (0 means 25)"))
  else r.claim id root since (if maxProposals = 0 then scanDefaultCap else maxProposals)

def unknownScan : Failure := badRequest "unknown scan_id (finished scans are retained only briefly)"

def Runner.get (r : Runner) (id : String) : Except Failure View := match r.jobs.get id with
  | none => .error unknownScan
  | some i => .ok (r.scan i).view

/-- Take a running scan out of the active ones. -/
def Runner.stop (r : Runner) (i : ℕ) : Runner :=
  let job := r.scan i
  let v := { job.view with state := .cancelled }
  if r.active.get v.repoRoot = some i then
    { r with
      scans := r.scans.set i { job with view := v, stopping := true }
      active := r.active.erase v.repoRoot
      stopping := r.stopping+1 }
  else { r with scans := r.scans.set i { job with view := v } }

def Runner.cancel (r : Runner) (id : String) : Runner × Except Failure View :=
  match r.jobs.get id with
  | none => (r,.error unknownScan)
  | some i =>
    let r' := if (r.scan i).view.state = .running then r.stop i else r
    (r',.ok (r'.scan i).view)

inductive CtxErr where
  | canceled
  | deadlineExceeded
  deriving Repr, DecidableEq

/-- What a scan has come to: whether its context was cancelled before the board was read and how it
had ended by the end, what was found, and what the board holds by fingerprint. -/
structure Outcome where
  canceled : Bool
  ctxErr : Option CtxErr
  coverage : List Coverage
  findings : List Finding
  board : Except String (List (String × String) × Bool)

def scanFingerprint (category key : String) : String :=
  String.ofList (((sha256 (utf8Bytes (category.toList ++
    '\x00' :: key.toList))).take 8).flatMap Session.hexByte)

def Finding.fingerprint (f : Finding) : String := scanFingerprint f.category f.key

/-- A finding as a proposal, attached when an open item holds it. -/
def propose (index : List (String × String)) (f : Finding) : Proposal :=
  match index.find? (fun e => e.1 = f.fingerprint) with
  | some item => ⟨f.fingerprint,f.category,.attached,item.2⟩
  | none => ⟨f.fingerprint,f.category,.new,""⟩

def Outcome.dedupe (o : Outcome) : Except String (List Proposal × Bool) :=
  if o.findings = [] then .ok ([],true)
  else if o.canceled then .error "context canceled"
  else match o.board with
    | .error e => .error e
    | .ok (index,complete) => .ok (o.findings.map (propose index),complete)

def Outcome.proposals (o : Outcome) : List Proposal := match o.dedupe with
  | .ok (ps,_) => ps
  | .error _ => []

/-- How a scan ends; one that was cancelled stays so. -/
def Outcome.ending (o : Outcome) (state : ScanState) : ScanState :=
  if state = .cancelled then .cancelled
  else match o.ctxErr with
    | some .deadlineExceeded => .deadline
    | some .canceled => .cancelled
    | none => match o.dedupe with
      | .error _ => .failed
      | .ok _ => .done

/-- What is kept of the proposals so far. -/
structure Tally where
  kept : List Proposal
  next : List String
  opened : ℕ
  newCount : ℕ
  attachedCount : ℕ
  overCap : ℕ

def Tally.take (known : List String) (maxProposals : ℤ) (t : Tally) (p : Proposal) : Tally :=
  if p.status = .attached then { t with kept := t.kept ++ [p], attachedCount := t.attachedCount+1 }
  else
    let p := if p.fingerprint ∈ known then { p with status := .known } else p
    if maxProposals ≤ t.opened then { t with overCap := t.overCap+1 }
    else { t with
      kept := t.kept ++ [p]
      next := p.fingerprint :: t.next
      opened := t.opened+1
      newCount := if p.status = .new then t.newCount+1 else t.newCount }

def tally (known : List String) (maxProposals : ℤ) (ps : List Proposal) : Tally :=
  ps.foldl (Tally.take known maxProposals) ⟨[],[],0,0,0,0⟩

/-- Remember the fingerprints of a root, for so many roots. -/
def Runner.remember (r : Runner) (root : String) (set : List String) : Runner :=
  let roots := if (r.known.get root).isNone then r.roots ++ [root] else r.roots
  let out := if (r.known.get root).isNone then roots.length-scanKnownRoots else 0
  { r with
    known := ((roots.take out).foldl Table.erase r.known).set root set
    roots := roots.drop out }

def Runner.knows (r : Runner) (root : String) : List String := (r.known.get root).getD []

/-- Whether a scan reports, and remembers what it reported. -/
def ScanState.reports (s : ScanState) : Bool := s ≠ .failed && s ≠ .cancelled

/-- The view of a scan that is through. -/
def Outcome.view (o : Outcome) (known : List String) (v : View) : View :=
  let state := o.ending v.state
  let t := if state.reports then tally known v.maxProposals o.proposals
    else ⟨v.proposals,[],0,v.newCount,v.attachedCount,v.overCap⟩
  let boardComplete := match o.dedupe with
    | .ok (_,complete) => complete
    | .error _ => false
  { v with
    state := state
    error := match o.dedupe with
      | .error e => if state = .failed then
        "the board could not be read, so no proposal can be deduped: " ++ e else v.error
      | .ok _ => v.error
    coverage := o.coverage
    boardComplete := boardComplete
    proposals := t.kept
    newCount := t.newCount
    attachedCount := t.attachedCount
    overCap := t.overCap
    complete := state = .done && boardComplete && t.overCap = 0 && o.coverage.all (fun c =>
      c.status = "ok") }

/-- What is remembered after a scan; one that was interrupted only adds. -/
def Outcome.remembers (o : Outcome) (known : List String) (v : View) : List String :=
  let next := (tally known v.maxProposals o.proposals).next
  if o.ending v.state = .done then next else next ++ known

/-- Give a place back. -/
def Runner.release (r : Runner) (i : ℕ) : Runner :=
  let job := r.scan i
  if job.stopping then { r with stopping := r.stopping-1 }
  else if r.active.get job.view.repoRoot = some i then
    { r with active := r.active.erase job.view.repoRoot }
  else r

/-- Forget the oldest scans that are through. -/
def Runner.retire (r : Runner) (id : String) : Runner :=
  let order := r.order ++ [id]
  let out := order.length-scanRetained
  { r with
    jobs := (order.take out).foldl Table.erase r.jobs
    order := order.drop out }

/-- The goroutine of a scan comes to its end. -/
def Runner.finish (r : Runner) (i : ℕ) (o : Outcome) : Runner :=
  let job := r.scan i
  if job.ended then r
  else
    let known := r.knows job.view.repoRoot
    let v := o.view known job.view
    let r := if v.state.reports then r.remember v.repoRoot (o.remembers known job.view) else r
    let r := (r.release i).retire v.scanID
    { r with scans := r.scans.set i { job with view := v, ended := true } }

/-- What happens to a runner: a call, or the end of a goroutine. -/
inductive Act where
  | start (id root since : String) (maxProposals : ℤ)
  | get (id : String)
  | cancel (id : String)
  | close
  | finish (i : ℕ) (o : Outcome)

def step (r : Runner) : Act → Runner
  | .start id root since maxProposals => (r.start id root since maxProposals).1
  | .get _ => r
  | .cancel id => (r.cancel id).1
  | .close => { r with closed := true }
  | .finish i o => r.finish i o

/-- A runner after some acts. -/
def after (acts : List Act) : Runner := acts.foldl step Runner.new

section slots
variable {r : Runner} {i : ℕ} {job : Job}

def Job.unfinished (j : Job) : Bool := !j.ended

def Job.halting (j : Job) : Bool := !j.ended && j.stopping

/-- The goroutines that are not through. -/
def Runner.unfinished (r : Runner) : ℕ := r.scans.countP Job.unfinished

/-- Each goroutine that is not through is the scan of its root, or is counted as stopping. -/
structure Slots (r : Runner) : Prop where
  held : ∀ (root : String) (i : ℕ), r.active.get root = some i →
    ∃ job, r.scans[i]? = some job ∧ job.view.repoRoot = root ∧ job.view.state = .running ∧
    job.stopping = false
  running : ∀ (i : ℕ) (job : Job), r.scans[i]? = some job → job.view.state = .running →
    job.ended = false ∧ r.active.get job.view.repoRoot = some i
  going : ∀ (i : ℕ) (job : Job), r.scans[i]? = some job → job.ended = false → job.stopping = false →
    job.view.state = .running
  halting : ∀ (i : ℕ) (job : Job), r.scans[i]? = some job → job.stopping = true →
    job.view.state = .cancelled
  stopping : r.stopping = r.scans.countP Job.halting
  count : (r.unfinished : ℤ) = r.active.size+r.stopping
  bound : (r.unfinished : ℤ) ≤ scanMaxActive

lemma slots_new : Slots Runner.new where
  held := fun _ _ h => (by cases h)
  running := fun _ _ h => (by cases h)
  going := fun _ _ h => (by cases h)
  halting := fun _ _ h => (by cases h)
  stopping := rfl
  count := rfl
  bound := by decide

lemma Runner.scan_eq (h : r.scans[i]? = some job) : r.scan i = job := by
  rw [Runner.scan,h]
  rfl

/-- A place that holds no scan reads as one that is through. -/
lemma Runner.scan_of_not_ended (h : (r.scan i).ended = false) : r.scans[i]? = some (r.scan i) := by
  unfold Runner.scan at h ⊢
  cases hj : r.scans[i]? with
  | none =>
    rw [hj] at h
    cases h
  | some job => rfl

lemma Runner.scan_of_cancelled {s : ScanState} (hs : s ≠ .running) (h : (r.scan i).view.state = s) :
    r.scans[i]? = some (r.scan i) := by
  unfold Runner.scan at h ⊢
  cases hj : r.scans[i]? with
  | none =>
    rw [hj] at h
    exact (hs h.symm).elim
  | some job => rfl

lemma getElem?_set {scans : List Job} {k : ℕ} {new : Job} (h : (scans.set i new)[k]? = some job) :
    (k = i ∧ i < scans.length ∧ job = new) ∨ (k ≠ i ∧ scans[k]? = some job) := by
  by_cases hk : k = i
  · subst hk
    by_cases hlt : k < scans.length
    · rw [List.getElem?_set_self hlt] at h
      exact .inl ⟨rfl,hlt,(Option.some.inj h).symm⟩
    · rw [List.getElem?_eq_none (by simpa using hlt)] at h
      cases h
  · rw [List.getElem?_set_ne (Ne.symm hk)] at h
    exact .inr ⟨hk,h⟩

lemma countP_replace {scans : List Job} (new : Job) (p : Job → Bool) (h : scans[i]? = some job) :
    ((scans.set i new).countP p : ℤ) = scans.countP p-(if p job then 1 else 0)+(if p new then
      1 else 0) := by
  obtain ⟨hlt,hget⟩ := List.getElem?_eq_some_iff.mp h
  have hcount := List.countP_set (p := p) (a := new) hlt
  rw [hget] at hcount
  have hpos : p job = true → 0 < scans.countP p :=
    fun hp => List.countP_pos_iff.mpr ⟨job,List.mem_of_getElem? h,hp⟩
  rw [hcount]
  split_ifs with hold hnew
  · have := hpos hold
    omega
  · have := hpos hold
    omega
  · omega
  · omega

/-- A new scan takes a place that is free. -/
lemma Slots.start (h : Slots r) (id root since : String) (maxProposals : ℤ)
    (hroot : r.active.get root = none)
    (hfree : ¬ scanMaxActive ≤ r.active.size+r.stopping) (jobs : Table String ℕ) :
    Slots { r with
      scans := r.scans ++ [⟨newView id root since maxProposals,false,false⟩]
      jobs := jobs
      active := r.active.set root r.scans.length } := by
  have hold : ∀ {k : ℕ} {job : Job},
    (r.scans ++ [⟨newView id root since maxProposals,false,false⟩])[k]? = some job →
      (k = r.scans.length ∧ job = ⟨newView id root since maxProposals,false,false⟩) ∨
      r.scans[k]? = some job := by
    intro k job hk
    rw [List.getElem?_append] at hk
    split_ifs at hk with hlt
    · exact .inr hk
    · obtain ⟨hidx,hjob⟩ := List.getElem?_eq_some_iff.mp hk
      simp only [List.length_singleton] at hidx
      refine .inl ⟨by omega,?_⟩
      simpa using hjob.symm
  refine ⟨?_,?_,?_,?_,?_,?_,?_⟩
  · intro root' i hi
    rw [Table.get_set] at hi
    split_ifs at hi with hsame
    · cases hi
      exact ⟨⟨newView id root since maxProposals,false,false⟩,by simp,hsame.symm,rfl,rfl⟩
    · obtain ⟨job,hjob,hrest⟩ := h.held root' i hi
      exact ⟨job,(List.getElem?_append_left (List.getElem?_eq_some_iff.mp hjob).1).trans hjob,hrest⟩
  · intro i job hjob hstate
    obtain ⟨rfl,rfl⟩ | hjob := hold hjob
    · exact ⟨rfl,Table.get_set_self _ _ _⟩
    · obtain ⟨hended,hget⟩ := h.running i job hjob hstate
      refine ⟨hended,?_⟩
      rw [Table.get_set_of_ne _ (fun he => ?_)]
      · exact hget
      · rw [he,hroot] at hget
        cases hget
  · intro i job hjob
    obtain ⟨rfl,rfl⟩ | hjob := hold hjob
    · exact fun _ _ => rfl
    · exact h.going i job hjob
  · intro i job hjob
    obtain ⟨rfl,rfl⟩ | hjob := hold hjob
    · exact fun he => (by cases he)
    · exact h.halting i job hjob
  · simpa [List.countP_append,Job.halting] using h.stopping
  · have hcount := h.count
    simp only [Runner.unfinished,List.countP_append,Table.size_set_of_none hroot] at hcount ⊢
    simp only [List.countP_singleton,Job.unfinished]
    push_cast
    simp only [Bool.not_false,if_true]
    push_cast
    omega
  · have hcount := h.count
    simp only [Runner.unfinished,List.countP_append] at hcount ⊢
    simp only [List.countP_singleton,Job.unfinished,Bool.not_false,if_true]
    push_cast
    omega

/-- A goroutine that is not through is the scan of its root, or is stopping. -/
lemma Slots.active_of_going (h : Slots r) (hjob : r.scans[i]? = some job)
    (hended : job.ended = false) (hgoing : job.stopping = false) :
    r.active.get job.view.repoRoot = some i :=
  (h.running i job hjob (h.going i job hjob hended hgoing)).2

/-- A scan that no longer runs leaves its place, and one that is only stopped is counted. -/
lemma Slots.replace (h : Slots r) (hjob : r.scans[i]? = some job) (hended : job.ended = false)
    (new : Job) {r' : Runner}
    (hstate : new.view.state ≠ .running) (hnew : new.ended = false → new.stopping = true)
    (hhalt : new.stopping = true → new.view.state = .cancelled)
    (hscans : r'.scans = r.scans.set i new)
    (hactive : r'.active = if job.stopping then r.active else r.active.erase job.view.repoRoot)
    (hstopping : r'.stopping = r.stopping-(if job.stopping then 1 else 0)+(if new.ended then
      0 else 1)) : Slots r' := by
  have hunfinished := countP_replace new Job.unfinished hjob
  have hhalting := countP_replace new Job.halting hjob
  rw [← hscans] at hunfinished hhalting
  have hsize : r'.active.size+(if job.stopping then 0 else 1) = r.active.size := by
    rw [hactive]
    cases hgoing : job.stopping with
    | true => rfl
    | false => exact Table.size_erase_of_some (h.active_of_going hjob hended hgoing)
  have hcount := h.count
  have hbound := h.bound
  have hsum := h.stopping
  have hlive : (if job.unfinished then (1 : ℤ) else 0) = 1 := by simp [Job.unfinished,hended]
  have hlive' : (if new.unfinished then (1 : ℤ) else 0) = if new.ended then 0 else 1 := by
    cases hn : new.ended <;> simp [Job.unfinished,hn]
  have hcalm : (if job.halting then (1 : ℤ) else 0) = if job.stopping then
    1 else 0 := by simp [Job.halting,hended]
  have hcalm' : (if new.halting then (1 : ℤ) else 0) = if new.ended then 0 else 1 := by
    cases hn : new.ended with
    | true => simp [Job.halting,hn]
    | false => simp [Job.halting,hn,hnew hn]
  rw [hlive,hlive'] at hunfinished
  rw [hcalm,hcalm'] at hhalting
  have hkept : ∀ (root : String) (k : ℕ), r.active.get root = some k → k ≠ i →
    r'.active.get root = some k := by
    intro root k hk hne
    rw [hactive]
    cases hgoing : job.stopping with
    | true => exact hk
    | false =>
      refine (Table.get_erase_of_ne _ (fun he => hne ?_)).trans hk
      rw [he,h.active_of_going hjob hended hgoing] at hk
      exact (Option.some.inj hk).symm
  have hleft : ∀ (root : String) (k : ℕ), r'.active.get root = some k → r.active.get root = some k ∧
    k ≠ i := by
    intro root k hk
    rw [hactive] at hk
    cases hgoing : job.stopping with
    | true =>
      rw [hgoing] at hk
      refine ⟨hk,?_⟩
      rintro rfl
      obtain ⟨other,hother,_,_,hcalm⟩ := h.held root k hk
      obtain rfl := Option.some.inj (hjob.symm.trans hother)
      exact Bool.noConfusion (hgoing.symm.trans hcalm)
    | false =>
      rw [hgoing] at hk
      simp only [Bool.false_eq_true,if_false,Table.get_erase] at hk
      split_ifs at hk with hsame
      refine ⟨hk,?_⟩
      rintro rfl
      obtain ⟨other,hother,hroot,_⟩ := h.held root k hk
      obtain rfl := Option.some.inj (hjob.symm.trans hother)
      exact hsame hroot.symm
  refine ⟨?_,?_,?_,?_,?_,?_,?_⟩
  · intro root k hk
    obtain ⟨hold,hne⟩ := hleft root k hk
    obtain ⟨other,hother,hrest⟩ := h.held root k hold
    refine ⟨other,?_,hrest⟩
    rw [hscans,List.getElem?_set_ne hne.symm,hother]
  · intro k other hother hrunning
    rw [hscans] at hother
    obtain ⟨_,_,rfl⟩ | ⟨hne,hother⟩ := getElem?_set hother
    · exact (hstate hrunning).elim
    · obtain ⟨hlive,hget⟩ := h.running k other hother hrunning
      exact ⟨hlive,hkept _ k hget hne⟩
  · intro k other hother hlive hgoing
    rw [hscans] at hother
    obtain ⟨_,_,rfl⟩ | ⟨_,hother⟩ := getElem?_set hother
    · exact Bool.noConfusion (hgoing.symm.trans (hnew hlive))
    · exact h.going k other hother hlive hgoing
  · intro k other hother
    rw [hscans] at hother
    obtain ⟨_,_,rfl⟩ | ⟨_,hother⟩ := getElem?_set hother
    · exact hhalt
    · exact h.halting k other hother
  · rw [hstopping,hhalting,hsum]
  · rw [Runner.unfinished] at hcount ⊢
    rw [hunfinished,hstopping]
    cases hgoing : job.stopping <;> simp only [hgoing,Bool.false_eq_true,if_true,
      if_false] at hsize ⊢ <;> omega
  · rw [Runner.unfinished] at hbound ⊢
    rw [hunfinished]
    split_ifs <;> omega

lemma Slots.stop (h : Slots r) (hjob : r.scans[i]? = some job)
    (hstate : job.view.state = .running) : Slots (r.stop i) := by
  obtain ⟨hended,hactive⟩ := h.running i job hjob hstate
  obtain ⟨_,hjob',_,_,hgoing⟩ := h.held _ i hactive
  obtain rfl := Option.some.inj (hjob.symm.trans hjob')
  have hstop : r.stop i = { r with
      scans := r.scans.set i ⟨{ job.view with state := .cancelled },true,job.ended⟩
      active := r.active.erase job.view.repoRoot
      stopping := r.stopping+1 } := by
    simp only [Runner.stop,Runner.scan_eq hjob,if_pos hactive]
  rw [hstop]
  refine h.replace hjob hended ⟨{ job.view with state := .cancelled },true,
    job.ended⟩ ?_ (fun _ => rfl) (fun _ => rfl) rfl ?_ ?_
  · exact fun he => (by cases he)
  · rw [hgoing]
    rfl
  · simp [hgoing,hended]

lemma Outcome.ending_ne_running (o : Outcome) (s : ScanState) : o.ending s ≠ .running := by
  unfold Outcome.ending
  split_ifs
  · exact fun h => (by cases h)
  · repeat' split
    all_goals exact fun h => (by cases h)

lemma Outcome.ending_cancelled (o : Outcome) : o.ending .cancelled = .cancelled := if_pos rfl

@[simp] lemma release_scans : (r.release i).scans = r.scans := by
  unfold Runner.release
  dsimp only
  split_ifs <;> rfl

@[simp] lemma retire_scans (id : String) : (r.retire id).scans = r.scans := by
  simp only [Runner.retire]

/-- Remembering does not touch the places. -/
lemma release_remember (root : String) (set : List String) :
    (r.remember root set).release i = (r.release i).remember root set := by
  have hscan : (r.remember root set).scan i = r.scan i := rfl
  have hactive : (r.remember root set).active = r.active := rfl
  simp only [Runner.release,hscan,hactive]
  by_cases hstop : (r.scan i).stopping = true
  · rw [if_pos hstop,if_pos hstop]
    simp only [Runner.remember]
  · rw [if_neg hstop,if_neg hstop]
    by_cases hget : r.active.get (r.scan i).view.repoRoot = some i
    · rw [if_pos hget,if_pos hget]
      simp only [Runner.remember]
    · rw [if_neg hget,if_neg hget]

/-- What the end of a goroutine does to the scans and their places. -/
lemma finish_parts (hended : (r.scan i).ended = false) (o : Outcome) :
    (r.finish i o).scans = r.scans.set i { r.scan i with
      view := o.view (r.knows (r.scan i).view.repoRoot) (r.scan i).view, ended := true }
    ∧ (r.finish i o).active = (r.release i).active ∧
    (r.finish i o).stopping = (r.release i).stopping := by
  unfold Runner.finish
  simp only [hended,Bool.false_eq_true,if_false]
  split_ifs
  · rw [release_remember]
    refine ⟨?_,rfl,rfl⟩
    rw [retire_scans]
    exact congrArg (fun s => List.set s i _) release_scans
  · refine ⟨?_,rfl,rfl⟩
    rw [retire_scans,release_scans]

lemma Slots.finish (h : Slots r) (i : ℕ) (o : Outcome) : Slots (r.finish i o) := by
  cases hended : (r.scan i).ended with
  | true =>
    have hsame : r.finish i o = r := by
      simp only [Runner.finish,hended,if_true]
    rw [hsame]
    exact h
  | false =>
    have hjob := Runner.scan_of_not_ended hended
    obtain ⟨hscans,hactive,hstopping⟩ := finish_parts hended o
    refine h.replace hjob hended _ (o.ending_ne_running _) (fun he => (by cases he)) ?_ hscans ?_ ?_
    · intro hstop
      exact (congrArg o.ending (h.halting i _ hjob hstop)).trans o.ending_cancelled
    · rw [hactive,Runner.release]
      cases hgoing : (r.scan i).stopping with
      | true => simp
      | false => simp [h.active_of_going hjob hended hgoing]
    · rw [hstopping,Runner.release]
      cases hgoing : (r.scan i).stopping with
      | true => simp
      | false => simp [h.active_of_going hjob hended hgoing]

/-- What a claim on a root can do: refuse, join, or take a place. -/
lemma claim_cases (r : Runner) (id root since : String) (maxProposals : ℤ) :
    (∃ e, r.claim id root since maxProposals = (r,.error e))
    ∨ (∃ i, r.active.get root = some i ∧ r.claim id root since maxProposals = (r,
      .ok { (r.scan i).view with joined := true }))
    ∨ (r.active.get root = none ∧ ¬ scanMaxActive ≤ r.active.size+r.stopping ∧
      r.claim id root since maxProposals = ({ r with
      scans := r.scans ++ [⟨newView id root since maxProposals,false,false⟩]
      jobs := r.jobs.set id r.scans.length
      active := r.active.set root r.scans.length },.ok (newView id root since maxProposals))) := by
  unfold Runner.claim
  by_cases hclosed : r.closed = true
  · rw [if_pos hclosed]
    exact .inl ⟨_,rfl⟩
  · rw [if_neg hclosed]
    cases hroot : r.active.get root with
    | some i =>
      dsimp only
      split_ifs
      · exact .inl ⟨_,rfl⟩
      · exact .inr (.inl ⟨i,rfl,rfl⟩)
    | none =>
      dsimp only
      split_ifs with hfull
      · exact .inl ⟨_,rfl⟩
      · exact .inr (.inr ⟨rfl,hfull,rfl⟩)

/-- A start is refused, or it is a claim. -/
lemma start_cases (r : Runner) (id root since : String) (maxProposals : ℤ) :
    (∃ e, r.start id root since maxProposals = (r,.error e))
    ∨ ∃ n, r.start id root since maxProposals = r.claim id root since n := by
  unfold Runner.start
  split_ifs
  · exact .inl ⟨_,rfl⟩
  · exact .inr ⟨_,rfl⟩
  · exact .inr ⟨_,rfl⟩

/-- A cancel changes nothing, or it stops a scan that runs. -/
lemma cancel_cases (h : Slots r) (id : String) : (r.cancel id).1 = r
    ∨ ∃ i job, r.scans[i]? = some job ∧ job.view.state = .running ∧ (r.cancel id).1 = r.stop i := by
  unfold Runner.cancel
  cases hid : r.jobs.get id with
  | none => exact .inl rfl
  | some i =>
    dsimp only
    split_ifs with hrunning
    · cases hjob : r.scans[i]? with
      | none =>
        left
        have hset : ∀ new : Job, r.scans.set i new = r.scans :=
          fun new => List.set_eq_of_length_le (List.getElem?_eq_none_iff.mp hjob)
        have hfree : ¬ r.active.get (r.scan i).view.repoRoot = some i := by
          intro hget
          obtain ⟨_,hother,_⟩ := h.held _ i hget
          rw [hjob] at hother
          cases hother
        simp only [Runner.stop,if_neg hfree,hset]
      | some job =>
        rw [Runner.scan_eq hjob] at hrunning
        exact .inr ⟨i,job,hjob,hrunning,rfl⟩
    · exact .inl rfl

lemma Slots.step (h : Slots r) (a : Act) : Slots (step r a) := by
  cases a with
  | start id root since maxProposals =>
    obtain ⟨e,he⟩ | ⟨n,hn⟩ := start_cases r id root since maxProposals
    · simpa only [Scan.step,he] using h
    · simp only [Scan.step,hn]
      obtain ⟨e,he⟩ | ⟨i,_,he⟩ | ⟨hroot,hfree,he⟩ := claim_cases r id root since n
      · simpa only [he] using h
      · simpa only [he] using h
      · rw [he]
        exact h.start id root since n hroot hfree _
  | get id => exact h
  | cancel id =>
    obtain he | ⟨i,job,hjob,hrunning,he⟩ := cancel_cases h id
    · simpa only [Scan.step,he] using h
    · simp only [Scan.step,he]
      exact h.stop hjob hrunning
  | close => exact ⟨h.held,h.running,h.going,h.halting,h.stopping,h.count,h.bound⟩
  | finish i o => exact h.finish i o

lemma slots_foldl (h : Slots r) (acts : List Act) : Slots (acts.foldl step r) := by
  induction acts generalizing r with
  | nil => exact h
  | cons a acts ih => exact ih (h.step a)

lemma slots_after (acts : List Act) : Slots (after acts) := slots_foldl slots_new acts

lemma scan_of_scans_eq {r' : Runner} (h : r'.scans[i]? = r.scans[i]?) : r'.scan i = r.scan i := by
  rw [Runner.scan,Runner.scan,h]

/-- No act brings a cancelled scan to another end. -/
lemma step_cancelled (h : Slots r) (a : Act) (hc : (r.scan i).view.state = .cancelled) :
    ((step r a).scan i).view.state = .cancelled := by
  have hjob := Runner.scan_of_cancelled (s := .cancelled) (fun he => (by cases he)) hc
  cases a with
  | start id root since maxProposals =>
    obtain ⟨e,he⟩ | ⟨n,hn⟩ := start_cases r id root since maxProposals
    · simpa only [step,he] using hc
    · simp only [step,hn]
      obtain ⟨e,he⟩ | ⟨_,_,he⟩ | ⟨_,_,he⟩ := claim_cases r id root since n
      · simpa only [he] using hc
      · simpa only [he] using hc
      · rw [he,scan_of_scans_eq (r := r)]
        · exact hc
        · exact List.getElem?_append_left (List.getElem?_eq_some_iff.mp hjob).1
  | get id => exact hc
  | cancel id =>
    obtain he | ⟨k,job,hk,hrunning,he⟩ := cancel_cases h id
    · simpa only [step,he] using hc
    · simp only [step,he]
      have hne : k ≠ i := by
        rintro rfl
        rw [Runner.scan_eq hk,hrunning] at hc
        cases hc
      rw [scan_of_scans_eq (r := r)]
      · exact hc
      · simp only [Runner.stop]
        split_ifs <;> exact List.getElem?_set_ne hne
  | close => exact hc
  | finish k o =>
    cases hended : (r.scan k).ended with
    | true =>
      simp only [step,Runner.finish,hended,if_true]
      exact hc
    | false =>
      simp only [step]
      have hscans := (finish_parts hended o).1
      by_cases hk : k = i
      · subst hk
        have hlt := (List.getElem?_eq_some_iff.mp hjob).1
        rw [Runner.scan_eq (by rw [hscans,List.getElem?_set_self hlt])]
        exact (congrArg o.ending hc).trans o.ending_cancelled
      · rw [scan_of_scans_eq (r := r)]
        · exact hc
        · rw [hscans,List.getElem?_set_ne hk]

lemma foldl_cancelled (h : Slots r) (acts : List Act) (hc : (r.scan i).view.state = .cancelled) :
    ((acts.foldl step r).scan i).view.state = .cancelled := by
  induction acts generalizing r with
  | nil => exact hc
  | cons a acts ih => exact ih (h.step a) (step_cancelled h a hc)

lemma get_of_jobs {id : String} (hid : r.jobs.get id = some i) :
    r.get id = .ok (r.scan i).view := by
  rw [Runner.get,hid]

/-- A joined view is that of the scan of the root, which runs. -/
lemma start_joined (h : Slots r) {id root since : String} {maxProposals : ℤ} {v : View}
    (hstart : (r.start id root since maxProposals).2 = .ok v) (hjoined : v.joined = true) :
    ∃ i, v = { (r.scan i).view with joined := true } ∧ (r.scan i).ended = false ∧
    v.state = .running ∧ v.repoRoot = root := by
  obtain ⟨e,he⟩ | ⟨n,hn⟩ := start_cases r id root since maxProposals
  · rw [he] at hstart
    cases hstart
  · rw [hn] at hstart
    obtain ⟨e,he⟩ | ⟨i,hi,he⟩ | ⟨_,_,he⟩ := claim_cases r id root since n
    · rw [he] at hstart
      cases hstart
    · rw [he] at hstart
      cases hstart
      obtain ⟨job,hjob,hroot,hrunning,_⟩ := h.held root i hi
      have hended := (h.running i job hjob hrunning).1
      rw [Runner.scan_eq hjob]
      exact ⟨i,by rw [Runner.scan_eq hjob],by rw [Runner.scan_eq hjob]; exact hended,hrunning,hroot⟩
    · rw [he] at hstart
      cases hstart
      cases hjoined

end slots

/-- However calls and goroutines interleave, the goroutines that are not through are the active
scans and those that are stopping, a root has one running scan, a cancelled scan stays so, and a
call that joins gets a scan that runs. -/
theorem slots_conserved (acts : List Act) :
    ((after acts).unfinished : ℤ) = (after acts).active.size+(after acts).stopping
    ∧ ((after acts).unfinished : ℤ) ≤ scanMaxActive ∧ 0 ≤ (after acts).stopping
    ∧ (∀ (i j : ℕ) (job job' : Job), (after acts).scans[i]? = some job →
      (after acts).scans[j]? = some job' →
      job.view.state = .running → job'.view.state = .running →
      job.view.repoRoot = job'.view.repoRoot → i = j)
    ∧ (∀ (i : ℕ) (more : List Act), ((after acts).scan i).view.state = .cancelled →
      ((after (acts ++ more)).scan i).view.state = .cancelled
      ∧ ∀ id, (after (acts ++ more)).jobs.get id = some i → ∃ v,
      (after (acts ++ more)).get id = .ok v ∧ v.state = .cancelled)
    ∧ (∀ (id root since : String) (maxProposals : ℤ) (v : View),
      ((after acts).start id root since maxProposals).2 = .ok v → v.joined = true →
      ∃ i, v = { ((after acts).scan i).view with joined := true } ∧
      ((after acts).scan i).ended = false
        ∧ v.state = .running ∧ v.repoRoot = root) := by
  have h := slots_after acts
  refine ⟨h.count,h.bound,?_,?_,?_,fun _ _ _ _ _ => start_joined h⟩
  · rw [h.stopping]
    exact Int.natCast_nonneg _
  · intro i j job job' hi hj hrunning hrunning' hroot
    have hget := (h.running i job hi hrunning).2
    have hget' := (h.running j job' hj hrunning').2
    rw [hroot,hget'] at hget
    exact (Option.some.inj hget).symm
  · intro i more hc
    have hstays : ((after (acts ++ more)).scan i).view.state = .cancelled := by
      rw [after,List.foldl_append]
      exact foldl_cancelled h more hc
    exact ⟨hstays,fun id hid => ⟨_,get_of_jobs hid,hstays⟩⟩

end Manvi.Scan
