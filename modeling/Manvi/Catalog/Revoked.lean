import Manvi.Catalog.Gate

/-! What a history of calls does to the status of each revision: one approved revision, revocations
that last, and when a change of one revision forgets what was known of another. -/
namespace Manvi.Catalog
open Manvi.Encoding

namespace Did

def Revokes (a : Did) (r : String) : Prop :=
  a.result = .done ∧ ∃ sha description, a.job = .status r sha description .revoked

def Approves (a : Did) (r : String) : Prop :=
  a.result = .done ∧ ∃ sha description, a.job = .status r sha description .approved

def Attaches (a : Did) : Prop := ∃ r sha st, a.job = .stability r sha st

/-- What a change of the pointer does: nothing, or what its job asks for. -/
inductive Fits (s : Store) (a : Did) : Prop
  | none (same : a.after = a.before) (failed : a.result ≠ .done)
  | placed (e : Entry) (revisions : a.after.revisions = a.before.revisions)
      (entry : entryOf a.after = some e)
    (sound : Sound s a.after) (becomes : Becomes (entryOf a.before) e a.job)
    (placed : ∀ err, a.written ≠ .refused err) (done : a.written = .done → a.result = .done)

/-- A change that finds nothing of another revision to forget: it is not put in place, or it revokes
the revision that the pointer names, or approves one while no other is revoked, and leaves no
approval in place that it reports as failed. -/
def Spares (a : Did) : Prop :=
  (∃ err, a.written = .refused err) ∨
    match a.job with
    | .status r _ _ .revoked => ∀ e, entryOf a.before = some e → e.revision = r
    | .status r _ _ _ => ∀ e, entryOf a.before = some e → e.status = .revoked → e.revision = r ∧
      a.written = .done
    | .stability _ _ _ => True

end Did

section
variable {s : Store} {t u : State} {hist : List Did}

/-- A step changes the pointer only by a change that goes into the history. -/
lemma step_pointer (h : Inv s t) {i : ℕ} {move : Move} (hu : s.step t i move = some u) :
    (did t u i move = [] ∧ u.disk.pointer = t.disk.pointer) ∨
      ∃ a, did t u i move = [a] ∧ a.before = t.disk ∧ a.after = u.disk ∧
      Checked s t.disk.revisions a.job ∧ a.Fits s := by
  cases move with
  | publish written =>
    simp only [Store.step] at hu
    split at hu
    · rename_i p hphase
      left
      cases hu
      refine ⟨by simp [did,hphase],?_⟩
      unfold Store.publishRevision
      split
      · rfl
      · cases hput : s.put t.disk p with
        | error e => rfl
        | ok both =>
          obtain ⟨d',e⟩ := both
          have hpointer := (put_extends hput).2
          dsimp only
          split <;> exact hpointer
    · rename_i job pointer hphase
      right
      have hpointer := h.fresh i job pointer hphase
      have hchecked := h.checked i job (by rw [hphase]; rfl)
      have hdid : ∀ (v : State) (result : Result), did t (v.finish i result) i (.publish written) =
          [⟨job,written,t.disk,v.disk,result⟩] := by
        intro v result
        have hreturned : (v.finish i result).procs i = .returned result := by simp [State.finish,
          State.goto]
        simp only [did,hphase,hreturned]
        rfl
      cases hnew : s.rewrite pointer job with
      | error e =>
        rw [hnew] at hu
        cases hu
        exact ⟨_,hdid _ _,rfl,rfl,hchecked,.none rfl (by simp)⟩
      | ok m =>
        rw [hnew] at hu
        cases hu
        rw [hpointer] at hnew
        obtain ⟨e,he,hrec,hbecomes⟩ := rewrite_recorded h.sound hchecked hnew
        have hentry : entryOf { t.disk with pointer := some m } = some e := by
          simp [entryOf,he,Except.toOption]
        have hsound : Sound s { t.disk with pointer := some m } := by
          intro m' hm'
          cases hm'
          exact ⟨e,he,hrec⟩
        cases written with
        | refused err => exact ⟨_,hdid _ _,rfl,rfl,hchecked,.none rfl (by simp)⟩
        | done => exact ⟨_,hdid _ _,rfl,rfl,hchecked,
            .placed e rfl hentry hsound hbecomes (by simp) (by simp)⟩
        | unsynced err => exact ⟨_,hdid _ _,rfl,rfl,hchecked,
            .placed e rfl hentry hsound hbecomes (by simp) (by simp)⟩
    · cases hu
  | call call =>
    left
    refine ⟨rfl,?_⟩
    simp only [Store.step] at hu
    split at hu
    · split at hu
      · split_ifs at hu
        cases hu
        rfl
      · cases hu
        rfl
    · split at hu
      · split_ifs at hu
        cases hu
        rfl
      · cases hu
        rfl
    · cases hu
  | advance fails =>
    left
    refine ⟨rfl,?_⟩
    have hbegin : ∀ call, (s.begin t i call).disk = t.disk := by
      have henter : ∀ x : Except String Store.Job, (Store.begin.enter t i x).disk = t.disk := by
        intro x
        cases x <;> rfl
      have hscan : ∀ get, (Store.begin.scan t i get).disk = t.disk := by
        intro get
        unfold Store.begin.scan
        split_ifs <;> rfl
      intro call
      cases call with
      | put p => rfl
      | approve revision sha => exact henter _
      | promote revision sha => exact henter _
      | revoke revision sha => exact henter _
      | setStability revision sha st => exact henter _
      | list => exact hscan _
      | get revision =>
        simp only [Store.begin]
        split_ifs
        · rfl
        · exact hscan _
    simp only [Store.step] at hu
    split at hu
    · cases hu
    · cases hu
      cases fails with
      | some e => rfl
      | none => dsimp only; rw [hbegin]
    · split_ifs at hu
      cases hu
      rfl
    · cases hu
      cases fails <;> rfl
    · cases hu
      cases fails <;> rfl
    · cases hu
      cases fails <;> rfl
    · cases hu
  | giveUp e =>
    left
    refine ⟨rfl,?_⟩
    simp only [Store.step] at hu
    split at hu
    · cases hu
      rfl
    · cases hu
  | die =>
    left
    cases hu
    exact ⟨rfl,rfl⟩

/-- Every change of a history does what its job asks for, or nothing, from a pointer that can be
read. -/
theorem Run.fits (run : Run s hist t) :
    ∀ a ∈ hist, Sound s a.before ∧ Checked s a.before.revisions a.job ∧ a.Fits s := by
  induction run with
  | start => simp
  | @step hist t u run i move h ih =>
    intro a ha
    rcases List.mem_append.mp ha with ha | ha
    · exact ih a ha
    · rcases step_pointer run.inv h with ⟨hnone,_⟩ | ⟨b,hone,hbefore,_,hchecked,hfits⟩
      · rw [hnone] at ha
        cases ha
      · rw [hone] at ha
        rw [List.mem_singleton.mp ha]
        rw [hbefore]
        exact ⟨run.inv.sound,hchecked,hfits⟩

/-- A change that does not touch what is said of a revision leaves it listed as it was. -/
lemma Did.Fits.listed_iff {a : Did} (h : a.Fits s) (hbefore : Sound s a.before) {r : String}
    (hgate : a.after = a.before ∨ gate (entryOf a.after) r = gate (entryOf a.before) r)
    (st : Status) :
    Listed s a.before r st ↔ Listed s a.after r st := by
  cases h with
  | none same _ => rw [same]
  | placed e revisions entry sound becomes placed done =>
    rcases hgate with hsame | hgate
    · rw [hsame]
    · rw [Catalog.listed_iff hbefore,Catalog.listed_iff sound,revisions,hgate]

lemma gate_of_ne {e : Entry} {r : String} (h : e.revision ≠ r) : gate (some e) r = .draft :=
    if_neg h

lemma gate_of_eq (e : Entry) : gate (some e) e.revision = e.status := if_pos rfl

lemma gate_revoked {cur : Option Entry} {r : String} (h : gate cur r = .revoked) :
    ∃ e, cur = some e ∧ e.revision = r ∧ e.status = .revoked := by
  cases cur with
  | none => cases h
  | some e =>
    unfold gate at h
    dsimp only at h
    split_ifs at h with hr
    exact ⟨e,rfl,hr,h⟩

/-- A revocation that spares the others changes what is said of its own revision only. -/
lemma Did.Revokes.gate_eq {a : Did} {r r' : String} (h : a.Revokes r) (hfits : a.Fits s)
    (hspares : a.Spares)
    (hne : r' ≠ r) : gate (entryOf a.after) r' = gate (entryOf a.before) r' := by
  obtain ⟨hdone,sha,description,hjob⟩ := h
  cases hfits with
  | none _ failed => exact absurd hdone failed
  | placed e revisions entry sound becomes placed done =>
    rw [hjob] at becomes
    obtain ⟨hrev,_⟩ := becomes
    rw [entry,gate_of_ne (by rw [hrev]; exact hne.symm)]
    rcases hspares with ⟨err,hrefused⟩ | hspares
    · exact absurd hrefused (placed err)
    · rw [hjob] at hspares
      cases hcur : entryOf a.before with
      | none => rfl
      | some e0 =>
        have hname : e0.revision = r := hspares e0 hcur
        rw [gate_of_ne (by rw [hname]; exact hne.symm)]

/-- A change of the stability changes what is said of no revision. -/
lemma Did.Attaches.gate_eq {a : Did} (h : a.Attaches) (hfits : a.Fits s) (r : String) :
    a.after = a.before ∨ gate (entryOf a.after) r = gate (entryOf a.before) r := by
  obtain ⟨revision,sha,st,hjob⟩ := h
  cases hfits with
  | none same _ => exact .inl same
  | placed e revisions entry sound becomes placed done =>
    rw [hjob] at becomes
    obtain ⟨e0,hcur,rfl⟩ := becomes
    right
    rw [entry,hcur]
    rfl

/-- A revocation stands through every change that spares it and does not approve its revision. -/
lemma Did.Fits.revoked {b : Did} {r : String} (hfits : b.Fits s)
    (hjob : Checked s b.before.revisions b.job) (hspares : b.Spares) (hnot : ¬ b.Approves r)
    (h : gate (entryOf b.before) r = .revoked) : gate (entryOf b.after) r = .revoked := by
  obtain ⟨e0,hcur,hr,hst⟩ := gate_revoked h
  cases hfits with
  | none same _ =>
    rw [same]
    exact h
  | placed e revisions entry sound becomes placed done =>
    rcases hspares with ⟨err,hrefused⟩ | hspares
    · exact absurd hrefused (placed err)
    cases hb : b.job with
    | stability revision sha st =>
      rw [hb] at becomes
      obtain ⟨e1,hcur1,rfl⟩ := becomes
      rw [hcur] at hcur1
      cases hcur1
      rw [entry,← hr]
      exact (gate_of_eq _).trans hst
    | status revision sha description status =>
      rw [hb] at becomes hspares hjob
      obtain ⟨hrev,hstatus⟩ := becomes
      rcases hjob.2.1 with rfl | rfl
      · obtain ⟨hname,hdone⟩ := hspares e0 hcur hst
        refine absurd ⟨done hdone,sha,description,?_⟩ hnot
        rw [hb,← hname,hr]
      · have hname : e0.revision = revision := hspares e0 hcur
        rw [entry,← hr,hname,← hrev,gate_of_eq]
        exact hstatus

/-- In a history of changes that spare the others, a revocation stands until its revision is
approved. -/
theorem Run.revoked (run : Run s hist t) (hspares : ∀ a ∈ hist, a.Spares) {pre mid : List Did}
    {a : Did} {r : String}
    (hsplit : hist = pre ++ a :: mid) (ha : a.Revokes r) (hmid : ∀ b ∈ mid, ¬ b.Approves r) :
    gate (entryOf t.disk) r = .revoked := by
  induction run generalizing mid with
  | start => simp at hsplit
  | @step hist t u run i move h ih =>
    rcases step_pointer run.inv h with ⟨hnone,hpointer⟩ | ⟨b,hone,hbefore,hafter,hchecked,hfits⟩
    · rw [hnone,List.append_nil] at hsplit hspares
      have hentry : entryOf u.disk = entryOf t.disk := by simp only [entryOf,hpointer]
      rw [hentry]
      exact ih hspares hsplit hmid
    · rw [hone] at hsplit hspares
      have hb := hspares b (by simp)
      rw [← hafter]
      rcases List.eq_nil_or_concat mid with rfl | ⟨mid',c,rfl⟩
      · have hlast : b = a := by
          have := congrArg List.getLast? hsplit
          simpa using this
        subst hlast
        obtain ⟨hdone,sha,description,hjob⟩ := ha
        cases hfits with
        | none _ failed => exact absurd hdone failed
        | placed e revisions entry sound becomes placed done =>
          rw [hjob] at becomes
          rw [entry,← becomes.1,gate_of_eq]
          exact becomes.2
      · have hboth : hist = pre ++ a :: mid' ∧ b = c := by
          have hassoc : pre ++ a :: (mid' ++ [c]) = (pre ++ a :: mid') ++ [c] := by simp
          rw [List.concat_eq_append,hassoc] at hsplit
          have := List.append_inj' hsplit rfl
          simpa using this
        obtain ⟨hhist,rfl⟩ := hboth
        have hstood := ih (fun x hx => hspares x (List.mem_append_left _ hx)) hhist
          (fun x hx => hmid x (by simp [hx]))
        rw [← hbefore] at hstood hchecked
        exact hfits.revoked hchecked hb (hmid b (by simp)) hstood

/-- What a history keeps: one approved revision at a time, revocations that touch no other revision
and last until their own is approved, and a stability that is no status. -/
structure RevokesLocally (s : Store) (hist : List Did) (t : State) : Prop where
  exclusive : ∀ r r', Listed s t.disk r .approved → Listed s t.disk r' .approved → r = r'
  answers : ∀ i result, t.procs i = .returned result → result.Exclusive
  others : ∀ a ∈ hist, ∀ r, a.Revokes r → ∀ r', r' ≠ r → ∀ st, Listed s a.before r' st ↔
    Listed s a.after r' st
  lasts : ∀ pre a mid r, hist = pre ++ a :: mid → a.Revokes r → (∀ b ∈ mid, ¬ b.Approves r) →
    ∀ st, Listed s t.disk r st → st = .revoked
  stability : ∀ a ∈ hist, a.Attaches → ∀ r st, Listed s a.before r st ↔ Listed s a.after r st

end

/-- In every run of any number of processes whose changes spare what is said of other revisions. -/
theorem revokesLocally_of_spares {s : Store} {hist : List Did} {t : State} (run : Run s hist t)
    (hspares : ∀ a ∈ hist, a.Spares) : RevokesLocally s hist t := by
  have hsound := run.inv.sound
  refine ⟨?_,?_,?_,?_,?_⟩
  · intro r r' h h'
    have hr := ((listed_iff hsound).mp h).2
    have hr' := ((listed_iff hsound).mp h').2
    cases hcur : entryOf t.disk with
    | none =>
      rw [hcur] at hr
      cases hr
    | some e =>
      have hname : ∀ x, Status.approved = gate (some e) x → e.revision = x := by
        intro x hx
        by_contra hne
        rw [gate_of_ne hne] at hx
        cases hx
      rw [hcur] at hr hr'
      rw [← hname r hr,hname r' hr']
  · intro i result hi rows hrows
    rw [hrows] at hi
    exact run.inv.rows i rows hi
  · intro a ha r hrevokes r' hne st
    obtain ⟨hbefore,_,hfits⟩ := run.fits a ha
    exact hfits.listed_iff hbefore (.inr (hrevokes.gate_eq hfits (hspares a ha) hne)) st
  · intro pre a mid r hsplit ha hmid st hlisted
    rw [((listed_iff hsound).mp hlisted).2]
    exact run.revoked hspares hsplit ha hmid
  · intro a ha hattaches r st
    obtain ⟨hbefore,_,hfits⟩ := run.fits a ha
    exact hfits.listed_iff hbefore (hattaches.gate_eq hfits r) st

/-! Two runs of one process. -/

/-- A history and a state after some steps, if each of them can be taken. -/
def runs (s : Store) : List Did → State → List (ℕ × Move) → Option (List Did × State)
  | hist,t,[] => some (hist,t)
  | hist,t,(i,move) :: rest => match s.step t i move with
    | some u => runs s (hist ++ did t u i move) u rest
    | none => none

lemma Run.runs {s : Store} {hist hist' : List Did} {t t' : State} (run : Run s hist t)
    {moves : List (ℕ × Move)}
    (h : runs s hist t moves = some (hist',t')) : Run s hist' t' := by
  induction moves generalizing hist t with
  | nil =>
    cases h
    exact run
  | cons move moves ih =>
    simp only [Catalog.runs] at h
    split at h
    · exact ih (run.step _ _ (by assumption)) h
    · cases h

/-- An artifact is one byte that names its revision. -/
def sampleStore : Store where
  root := "/catalog"
  id := "invoice"
  compile
    | [1] => .ok ⟨[1],"sha-1","invoice","r1","first"⟩
    | [2] => .ok ⟨[2],"sha-2","invoice","r2","second"⟩
    | _ => .error "not a capability"

def samplePut (raw : UInt8) (sha revision description : String) : List (ℕ × Move) :=
  [(0,.call (.put ⟨[raw],sha,"invoice",revision,description⟩)),(0,.publish .done)]

/-- A call that changes the pointer, run to its end. -/
def sampleChange (call : Call) : List (ℕ × Move) :=
  [(0,.call call),(0,.advance none),(0,.advance none),(0,.advance none),(0,.publish .done)]

/-- Two revisions are put, and the first is approved. -/
def sampleApproved : List (ℕ × Move) :=
  samplePut 1 "sha-1" "r1" "first" ++ samplePut 2 "sha-2" "r2" "second" ++
  sampleChange (.approve "r1" "sha-1")

/-- The jobs of a history, each with the revision that the pointer named before it. -/
def sampleJobs (hist : List Did) : List (Store.Job × Option String) :=
  hist.map (fun a => (a.job,(entryOf a.before).map Entry.revision))

theorem revokesLocally_of_spares_sampleApproved : ∃ hist t,
    Run sampleStore hist t ∧ hist.length = 2 ∧ RevokesLocally sampleStore hist t := by
  have heval : (runs sampleStore [] Store.start (sampleApproved ++
    sampleChange (.revoke "r1" "sha-1"))).map
      (fun out => sampleJobs out.1) = some [(.status "r1" "sha-1" "first" .approved,none),
        (.status "r1" "sha-1" "first" .revoked,some "r1")] := by
    decide
  obtain ⟨⟨hist,t⟩,hruns,hjobs⟩ := Option.map_eq_some_iff.mp heval
  have hrun := Run.start.runs hruns
  refine ⟨hist,t,hrun,by simpa [sampleJobs] using congrArg List.length hjobs,
    revokesLocally_of_spares hrun ?_⟩
  intro a ha
  have hmem : (a.job,(entryOf a.before).map Entry.revision) ∈ sampleJobs hist :=
    List.mem_map.mpr ⟨a,ha,rfl⟩
  rw [hjobs] at hmem
  right
  rcases List.mem_cons.mp hmem with h | h
  · simp only [Prod.mk.injEq,Option.map_eq_none_iff] at h
    rw [h.1]
    intro e he
    rw [h.2] at he
    cases he
  · simp only [List.mem_singleton,Prod.mk.injEq,Option.map_eq_some_iff] at h
    obtain ⟨hjob,e0,he0,hname⟩ := h
    rw [hjob]
    intro e he
    rw [he0] at he
    cases he
    exact hname

/-- The statuses of a listing, when it succeeds. -/
def listing (s : Store) (d : Disk) : Option (List (String × Status)) :=
  (s.listIdentity d.revisions.keys d.pointer d.revisions).toOption.map (fun rows =>
    rows.map (fun e => (e.revision,e.status)))

lemma listed_iff_mem {s : Store} {d : Disk} {rows : List (String × Status)}
    (h : listing s d = some rows) (r : String)
    (st : Status) : Listed s d r st ↔ (r,st) ∈ rows := by
  unfold listing at h
  unfold Listed
  cases hlist : s.listIdentity d.revisions.keys d.pointer d.revisions with
  | error e =>
    rw [hlist] at h
    cases h
  | ok all =>
    rw [hlist] at h
    cases h
    simp

/-- The second revision is revoked, and the first is listed as approved before and as a draft
after. -/
def forgets (a : Did) : Bool :=
  a.job = .status "r2" "sha-2" "second" .revoked && a.result = .done &&
    listing sampleStore a.before = some [("r1",.approved),("r2",.draft)] &&
    listing sampleStore a.after = some [("r1",.draft),("r2",.revoked)]

/-- Revoking the second revision takes the approval of the first away. -/
theorem revoke_forgets_approval :
    ∃ hist t, Run sampleStore hist t ∧ ¬ RevokesLocally sampleStore hist t := by
  have heval : (runs sampleStore [] Store.start (sampleApproved ++
    sampleChange (.revoke "r2" "sha-2"))).any
      (fun out => out.1.any forgets) = true := by
    decide
  obtain ⟨⟨hist,t⟩,hruns,hany⟩ := (Option.any_eq_true _ _).mp heval
  refine ⟨hist,t,Run.start.runs hruns,?_⟩
  intro hlocal
  obtain ⟨b,hmem,hb⟩ := List.any_eq_true.mp hany
  simp only [forgets,Bool.and_eq_true,decide_eq_true_eq] at hb
  obtain ⟨⟨⟨hjob,hresult⟩,hbefore⟩,hafter⟩ := hb
  have hlisted := (hlocal.others b hmem "r2" ⟨hresult,_,_,hjob⟩ "r1" (by decide) .approved).mp
    ((listed_iff_mem hbefore "r1" .approved).mpr (by decide))
  exact absurd ((listed_iff_mem hafter "r1" .approved).mp hlisted) (by decide)

end Manvi.Catalog
