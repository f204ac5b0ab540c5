import Manvi.Encoding.Json
import Manvi.Catalog.Store

/-! Which status each revision is listed with, and what the calls of any number of processes do to
it. -/
namespace Manvi.Catalog
open Manvi.Encoding

namespace Status

lemma ofText_text {st : Status} (h : st = .approved ∨ st = .revoked) : ofText st.text = st := by
  rcases h with rfl | rfl <;> rfl

end Status

/-- Decoding what was encoded gives the entry back. -/
lemma decodeEntry_encodeEntry {e : Entry} (h : e.status = .approved ∨ e.status = .revoked) :
    decodeEntry (encodeEntry e) = .ok e := by
  have hst := Status.ofText_text h
  obtain ⟨id,revision,sha,description,path,status,promoted,stability⟩ := e
  cases stability with
  | none =>
    simp only [decodeEntry,encodeEntry,textAt,flagAt,stabilityAt,Table.get_set,Table.get_empty,
      String.reduceEq,if_true,if_false]
    simp only [hst,bind,Except.bind,pure,Except.pure]
  | some st =>
    simp only [decodeEntry,encodeEntry,textAt,flagAt,stabilityAt,Table.get_set,Table.get_empty,
      String.reduceEq,if_true,if_false]
    simp only [hst,bind,Except.bind,pure,Except.pure]

/-- Setting the stability of the file sets it in the entry. -/
lemma decodeEntry_setStability {m : Members} {e : Entry} (h : decodeEntry m = .ok e)
    (st : Stability) :
    decodeEntry (m.set "stability" (.stability st)) = .ok { e with stability := some st } := by
  simp only [decodeEntry] at h ⊢
  obtain ⟨id,hid,h⟩ := bind_ok h
  obtain ⟨revision,hrevision,h⟩ := bind_ok h
  obtain ⟨sha,hsha,h⟩ := bind_ok h
  obtain ⟨description,hdescription,h⟩ := bind_ok h
  obtain ⟨path,hpath,h⟩ := bind_ok h
  obtain ⟨status,hstatus,h⟩ := bind_ok h
  obtain ⟨promoted,hpromoted,h⟩ := bind_ok h
  obtain ⟨stability,_,h⟩ := bind_ok h
  cases h
  have htext : ∀ key, key ≠ "stability" →
    textAt (m.set "stability" (.stability st)) key = textAt m key := by
    intro key hkey
    simp only [textAt,Table.get_set_of_ne m hkey]
  have hflag : flagAt (m.set "stability" (.stability st)) "promoted" = flagAt m "promoted" := by
    simp only [flagAt,Table.get_set_of_ne m (by decide : "promoted" ≠ "stability")]
  have hset : stabilityAt (m.set "stability" (.stability st)) "stability" = .ok (some st) := by
    simp only [stabilityAt,Table.get_set_self]
  rw [htext "id" (by decide),htext "revision" (by decide),htext "sha256" (by decide),
    htext "description" (by decide),htext "path" (by decide),htext "status" (by decide),hflag,
    hset,hid,
    hrevision,hsha,hdescription,hpath,hstatus,hpromoted]
  rfl

variable {s : Store} {d : Disk} {r : String} {st : Status}

/-- A revision is listed with a status. -/
def Listed (s : Store) (d : Disk) (r : String) (st : Status) : Prop :=
  ∃ rows, s.listIdentity d.revisions.keys d.pointer d.revisions = .ok rows ∧
    ∃ e ∈ rows, e.revision = r ∧ e.status = st

/-- An artifact that can be read and compiles to the revision that it is named after. -/
def Compiles (s : Store) (revisions : Table String Bytes) (revision sha : String) : Prop :=
  ∃ raw p, Store.readRegular revisions revision = .ok raw ∧ s.compile raw = .ok p ∧ p.id = s.id ∧
    p.revision = revision ∧ p.digest = sha

/-- What the pointer file says, when this package wrote it. -/
structure Recorded (s : Store) (revisions : Table String Bytes) (e : Entry) : Prop where
  id : e.id = s.id
  name : segment e.revision = true ∧ e.revision ≠ "current"
  status : e.status = .approved ∨ e.status = .revoked
  artifact : Compiles s revisions e.revision e.sha256

/-- The entry of the pointer file. -/
def entryOf (d : Disk) : Option Entry := d.pointer.bind (fun m => (decodeEntry m).toOption)

/-- The status that a revision has by an entry of the pointer. -/
def gate (cur : Option Entry) (r : String) : Status :=
  match cur with
  | some e => if e.revision = r then e.status else .draft
  | none => .draft

/-- The pointer file can be read and is about an artifact. -/
def Sound (s : Store) (d : Disk) : Prop :=
  ∀ m, d.pointer = some m → ∃ e, decodeEntry m = .ok e ∧ Recorded s d.revisions e

/-- The revisions that can be listed at all. -/
def Present (s : Store) (revisions : Table String Bytes) (r : String) : Prop :=
  ∃ rows, revisions.keys.mapM (s.row revisions) = .ok rows ∧ ∃ e ∈ rows, e.revision = r

lemma row_ok {revisions : Table String Bytes} {e : Entry} (h : s.row revisions r = .ok e) :
    e.revision = r ∧ e.status = .draft ∧ Compiles s revisions r e.sha256 := by
  unfold Store.row at h
  split_ifs at h
  obtain ⟨raw,hraw,h⟩ := bind_ok h
  obtain ⟨p,hp,h⟩ := bind_ok h
  split_ifs at h with hid
  cases h
  simp only [not_or,not_not] at hid
  exact ⟨rfl,rfl,raw,p,hraw,hp,hid.1,hid.2,rfl⟩

lemma Compiles.sha_eq {revisions : Table String Bytes} {sha sha' : String}
    (h : Compiles s revisions r sha)
    (h' : Compiles s revisions r sha') : sha = sha' := by
  obtain ⟨raw,p,hraw,hp,_,_,rfl⟩ := h
  obtain ⟨raw',p',hraw',hp',_,_,rfl⟩ := h'
  rw [hraw] at hraw'
  cases hraw'
  rw [hp] at hp'
  cases hp'
  rfl

lemma Compiles.mem_keys {revisions : Table String Bytes} {sha : String}
    (h : Compiles s revisions r sha) :
    r ∈ revisions.keys := by
  obtain ⟨raw,_,hraw,_⟩ := h
  by_contra hnot
  rw [← Table.get_eq_none_iff] at hnot
  simp [Store.readRegular,hnot] at hraw

lemma mem_rows {revisions : Table String Bytes} {names : List String} {rows : List Entry}
    (h : names.mapM (s.row revisions) = .ok rows) {e : Entry} (he : e ∈ rows) :
    s.row revisions e.revision = .ok e := by
  have hall := mapM_ok h
  clear h
  induction hall with
  | nil => cases he
  | @cons a b as bs hab _ ih =>
    rcases List.mem_cons.mp he with rfl | he
    · rw [(row_ok hab).1]
      exact hab
    · exact ih he

lemma exists_row {revisions : Table String Bytes} {names : List String} {rows : List Entry}
    (h : names.mapM (s.row revisions) = .ok rows) (hr : r ∈ names) :
    ∃ e ∈ rows, e.revision = r := by
  have hall := mapM_ok h
  clear h
  induction hall with
  | nil => cases hr
  | @cons a b as bs hab _ ih =>
    rcases List.mem_cons.mp hr with rfl | hr
    · exact ⟨b,List.mem_cons_self,(row_ok hab).1⟩
    · obtain ⟨e,he,hrev⟩ := ih hr
      exact ⟨e,List.mem_cons_of_mem _ he,hrev⟩

lemma normalizeStatus_status {e : Entry} (h : e.status = .approved ∨ e.status = .revoked) :
    (normalizeStatus e).status = e.status := by
  unfold normalizeStatus
  rcases h with h | h <;> simp [h]

lemma normalizeStatus_names (e : Entry) :
    (normalizeStatus e).revision = e.revision ∧ (normalizeStatus e).sha256 = e.sha256 := by
  unfold normalizeStatus
  cases e.status <;> exact ⟨rfl,rfl⟩

lemma current_recorded {revisions : Table String Bytes} {m : Members} {e : Entry}
    (hm : decodeEntry m = .ok e)
    (h : Recorded s revisions e) : s.current (some m) = .ok (some (normalizeStatus e)) := by
  have hkeep := normalizeStatus_status h.status
  simp only [Store.current,hm,bind,Except.bind]
  rw [if_neg (by simp [h.id,h.name.1,h.name.2])]
  rw [hkeep]
  rcases h.status with hst | hst <;> simp only [hst]

/-- A listing gives each revision the status that the pointer has for it, and nothing else. -/
lemma listed_iff (hd : Sound s d) :
    Listed s d r st ↔ Present s d.revisions r ∧ st = gate (entryOf d) r := by
  unfold Listed Present Store.listIdentity
  cases hrows : d.revisions.keys.mapM (s.row d.revisions) with
  | error e =>
    simp only [bind,Except.bind]
    constructor
    · rintro ⟨rows,h,_⟩
      cases hcur : s.current d.pointer with
      | error e => simp [hcur] at h
      | ok cur => simp [hcur] at h
    · rintro ⟨⟨rows,h,_⟩,_⟩
      cases h
  | ok rows =>
    cases hm : d.pointer with
    | none =>
      simp only [Store.current,bind,Except.bind,Option.all_none,if_true,Except.ok.injEq,
        exists_eq_left',
        List.mem_insertionSort,entryOf,hm,Option.bind_none,gate]
      constructor
      · rintro ⟨e,he,hr,hst⟩
        obtain ⟨e0,he0,rfl⟩ := List.mem_map.mp he
        exact ⟨⟨e0,he0,hr⟩,by rw [← hst]; exact (row_ok (mem_rows hrows he0)).2.1⟩
      · rintro ⟨⟨e,he,hr⟩,rfl⟩
        exact ⟨e,List.mem_map.mpr ⟨e,he,rfl⟩,hr,(row_ok (mem_rows hrows he)).2.1⟩
    | some m =>
      obtain ⟨cur,hcur,hrec⟩ := hd m hm
      obtain ⟨hrev,hsha⟩ := normalizeStatus_names cur
      have hnamed : ∀ e ∈ rows,
        Store.named (normalizeStatus cur) e = decide (cur.revision = e.revision) := by
        intro e he
        obtain ⟨_,_,hcomp⟩ := row_ok (mem_rows hrows he)
        simp only [Store.named,hrev,hsha]
        by_cases hname : cur.revision = e.revision
        · rw [← hname] at hcomp
          simp [hname,hrec.artifact.sha_eq hcomp]
        · simp [hname]
      have hany : rows.any (Store.named (normalizeStatus cur)) = true := by
        obtain ⟨e,he,hr⟩ := exists_row hrows hrec.artifact.mem_keys
        exact List.any_eq_true.mpr ⟨e,he,by rw [hnamed e he,hr]; simp⟩
      have hmark : ∀ e ∈ rows, (Store.mark (some (normalizeStatus cur)) e).revision = e.revision ∧
          (Store.mark (some (normalizeStatus cur)) e).status = gate (some cur) e.revision := by
        intro e he
        simp only [Store.mark,hnamed e he,gate,decide_eq_true_eq]
        split_ifs
        · exact ⟨rfl,normalizeStatus_status hrec.status⟩
        · exact ⟨rfl,(row_ok (mem_rows hrows he)).2.1⟩
      simp only [current_recorded hcur hrec,bind,Except.bind,Option.all_some,hany,if_true,
        Except.ok.injEq,
        exists_eq_left',List.mem_insertionSort,entryOf,hm,Option.bind_some,hcur,Except.toOption]
      constructor
      · rintro ⟨e,he,hr,hst⟩
        obtain ⟨e0,he0,rfl⟩ := List.mem_map.mp he
        obtain ⟨hr0,hst0⟩ := hmark e0 he0
        rw [hr0] at hr
        rw [hst0,hr] at hst
        exact ⟨⟨e0,he0,hr⟩,hst.symm⟩
      · rintro ⟨⟨e,he,hr⟩,rfl⟩
        obtain ⟨hr0,hst0⟩ := hmark e he
        exact ⟨_,List.mem_map.mpr ⟨e,he,rfl⟩,by rw [hr0,hr],by rw [hst0,hr]⟩

/-- At most one row of a listing is approved, whenever its parts were read. -/
lemma listIdentity_exclusive {names : List String} {pointer : Option Members}
    {revisions : Table String Bytes}
    {rows : List Entry} (h : s.listIdentity names pointer revisions = .ok rows) {e e' : Entry}
    (he : e ∈ rows)
    (he' : e' ∈ rows) (ha : e.status = .approved) (ha' : e'.status = .approved) :
    e.revision = e'.revision := by
  unfold Store.listIdentity at h
  obtain ⟨cur,hcur,h⟩ := bind_ok h
  obtain ⟨drafts,hdrafts,h⟩ := bind_ok h
  split_ifs at h
  cases h
  have hone : ∀ x ∈ drafts.map (Store.mark cur), x.status = .approved → ∃ c, cur = some c ∧
    c.revision = x.revision := by
    intro x hx hst
    obtain ⟨x0,hx0,rfl⟩ := List.mem_map.mp hx
    have hdraft := (row_ok (mem_rows hdrafts hx0)).2.1
    cases cur with
    | none =>
      simp only [Store.mark] at hst
      rw [hdraft] at hst
      cases hst
    | some c =>
      refine ⟨c,rfl,?_⟩
      simp only [Store.mark] at hst ⊢
      split_ifs at hst ⊢ with hnamed
      · simp only [Store.named,Bool.and_eq_true,decide_eq_true_eq] at hnamed
        exact hnamed.1
      · rw [hdraft] at hst
        cases hst
  obtain ⟨c,hc,hr⟩ := hone e ((List.mem_insertionSort _).mp he) ha
  obtain ⟨c',hc',hr'⟩ := hone e' ((List.mem_insertionSort _).mp he') ha'
  rw [hc] at hc'
  cases hc'
  rw [← hr,← hr']

/-! One change of the pointer. -/

/-- A change whose checks against the artifacts have passed. -/
def Checked (s : Store) (revisions : Table String Bytes) : Store.Job → Prop
  | .status revision sha _ status => (segment revision = true ∧ revision ≠ "current") ∧
      (status = .approved ∨ status = .revoked) ∧ Compiles s revisions revision sha
  | .stability _ _ _ => True

lemma setStatus_checked {revisions : Table String Bytes} {revision sha : String} {status : Status}
    {job : Store.Job}
    (h : s.setStatus revisions revision sha status = .ok job) : Checked s revisions job := by
  unfold Store.setStatus at h
  split_ifs at h with hname hst
  obtain ⟨raw,hraw,h⟩ := bind_ok h
  obtain ⟨p,hp,h⟩ := bind_ok h
  split_ifs at h with hid
  cases h
  simp only [not_or,not_not,Bool.not_eq_eq_eq_not,Bool.not_true,Bool.not_eq_false] at hname hid
  refine ⟨hname.2,?_,raw,p,hraw,hp,hid.1,hid.2.1,hid.2.2⟩
  by_cases ha : status = .approved
  · exact .inl ha
  · exact .inr (by_contra fun hr => hst ⟨ha,hr⟩)

lemma setStability_checked {revisions : Table String Bytes} {revision sha : String} {st : Stability}
    {job : Store.Job}
    (h : s.setStability revision sha st = .ok job) : Checked s revisions job := by
  unfold Store.setStability at h
  split_ifs at h
  obtain ⟨_,_,h⟩ := bind_ok h
  cases h
  trivial

/-- What the pointer says after a change: the status that was asked for, or what it said before with
another stability. -/
def Becomes (before : Option Entry) (e : Entry) : Store.Job → Prop
  | .status revision _ _ status => e.revision = revision ∧ e.status = status
  | .stability _ _ st => ∃ e0, before = some e0 ∧ e = { e0 with stability := some st }

lemma rewrite_recorded {job : Store.Job} {m : Members} (hd : Sound s d)
    (hjob : Checked s d.revisions job)
    (h : s.rewrite d.pointer job = .ok m) :
    ∃ e, decodeEntry m = .ok e ∧ Recorded s d.revisions e ∧ Becomes (entryOf d) e job := by
  cases job with
  | status revision sha description status =>
    obtain ⟨hname,hst,hcomp⟩ := hjob
    simp only [Store.rewrite] at h
    obtain ⟨prior,_,h⟩ := bind_ok h
    cases h
    exact ⟨_,decodeEntry_encodeEntry hst,⟨rfl,hname,hst,hcomp⟩,rfl,rfl⟩
  | stability revision sha st =>
    cases hm : d.pointer with
    | none =>
      rw [hm] at h
      cases h
    | some m0 =>
      rw [hm] at h
      obtain ⟨e0,he0,hrec⟩ := hd m0 hm
      simp only [Store.rewrite,he0,bind,Except.bind] at h
      split_ifs at h
      cases h
      refine ⟨_,decodeEntry_setStability he0 st,⟨hrec.id,hrec.name,hrec.status,hrec.artifact⟩,e0,
        ?_,rfl⟩
      simp [entryOf,hm,he0,Except.toOption]

/-! What holds in every run. -/

/-- The changes that a process is about to make. -/
def Phase.job : Phase → Option Store.Job
  | .waiting job => some job
  | .locked job => some job
  | .loaded job _ => some job
  | _ => none

/-- A process that holds the lock. -/
def Phase.holds : Phase → Bool
  | .locked _ => true
  | .loaded _ _ => true
  | _ => false

structure Inv (s : Store) (t : State) : Prop where
  sound : Sound s t.disk
  checked : ∀ i job, (t.procs i).job = some job → Checked s t.disk.revisions job
  lock : ∀ i, (t.procs i).holds = true → t.lock = some i
  fresh : ∀ i job pointer, t.procs i = .loaded job pointer → pointer = t.disk.pointer
  rows : ∀ i rows, t.procs i = .returned (.rows rows) →
    ∀ e ∈ rows, ∀ e' ∈ rows, e.status = .approved → e'.status = .approved → e.revision = e'.revision

/-- More artifacts change none that is there. -/
def Extends (revisions more : Table String Bytes) : Prop :=
  ∀ r raw, revisions.get r = some raw → more.get r = some raw

lemma Compiles.mono {revisions more : Table String Bytes} (hmore : Extends revisions more)
    {sha : String}
    (h : Compiles s revisions r sha) : Compiles s more r sha := by
  obtain ⟨raw,p,hraw,h⟩ := h
  refine ⟨raw,p,?_,h⟩
  unfold Store.readRegular at hraw ⊢
  cases hget : revisions.get r with
  | none =>
    rw [hget] at hraw
    cases hraw
  | some raw' =>
    rw [hget] at hraw
    rw [hmore r raw' hget]
    exact hraw

lemma Recorded.mono {revisions more : Table String Bytes} (hmore : Extends revisions more)
    {e : Entry}
    (h : Recorded s revisions e) : Recorded s more e := ⟨h.id,h.name,h.status,h.artifact.mono hmore⟩

lemma Checked.mono {revisions more : Table String Bytes} (hmore : Extends revisions more)
    {job : Store.Job}
    (h : Checked s revisions job) : Checked s more job := by
  cases job with
  | status revision sha description status => exact ⟨h.1,h.2.1,h.2.2.mono hmore⟩
  | stability revision sha st => trivial

lemma put_extends {p : Program} {d' : Disk} {e : Entry} (h : s.put d p = .ok (d',e)) :
    Extends d.revisions d'.revisions ∧ d'.pointer = d.pointer := by
  unfold Store.put at h
  split_ifs at h
  cases hget : d.revisions.get p.revision with
  | none =>
    rw [hget] at h
    cases h
    refine ⟨?_,rfl⟩
    intro r raw hr
    rw [Table.get_set_of_ne _ (by rintro rfl; rw [hget] at hr; cases hr)]
    exact hr
  | some raw =>
    rw [hget] at h
    obtain ⟨raw',_,h⟩ := bind_ok h
    split_ifs at h
    cases h
    exact ⟨fun _ _ hr => hr,rfl⟩

section
variable {t u : State}

/-- At most one row is approved, if a result has rows. -/
def Result.Exclusive (result : Result) : Prop :=
  ∀ rows, result = .rows rows →
    ∀ e ∈ rows, ∀ e' ∈ rows, e.status = .approved → e'.status = .approved → e.revision = e'.revision

lemma Inv.goto (h : Inv s t) {i : ℕ} {phase : Phase}
    (hjob : ∀ job, phase.job = some job → Checked s t.disk.revisions job)
    (hlock : phase.holds = true → t.lock = some i)
    (hfresh : ∀ job pointer, phase = .loaded job pointer → pointer = t.disk.pointer)
    (hrows : ∀ result, phase = .returned result → result.Exclusive) : Inv s (t.goto i phase) := by
  refine ⟨h.sound,?_,?_,?_,?_⟩
  · intro j job hj
    by_cases hij : j = i
    · simp only [State.goto,hij,Function.update_self] at hj
      exact hjob job hj
    · simp only [State.goto,Function.update_of_ne hij] at hj
      exact h.checked j job hj
  · intro j hj
    by_cases hij : j = i
    · simp only [State.goto,hij,Function.update_self] at hj
      rw [hij]
      exact hlock hj
    · simp only [State.goto,Function.update_of_ne hij] at hj
      exact h.lock j hj
  · intro j job pointer hj
    by_cases hij : j = i
    · simp only [State.goto,hij,Function.update_self] at hj
      exact hfresh job pointer hj
    · simp only [State.goto,Function.update_of_ne hij] at hj
      exact h.fresh j job pointer hj
  · intro j rows hj
    by_cases hij : j = i
    · simp only [State.goto,hij,Function.update_self] at hj
      exact hrows _ hj rows rfl
    · simp only [State.goto,Function.update_of_ne hij] at hj
      exact h.rows j rows hj

/-- A process that lets go of the lock leaves it to nobody else. -/
lemma Inv.unlock (h : Inv s t) {i : ℕ} (hi : (t.procs i).holds = false) :
    Inv s { t with lock := if t.lock = some i then none else t.lock } := by
  refine ⟨h.sound,h.checked,?_,h.fresh,h.rows⟩
  intro j hj
  have hlock := h.lock j hj
  dsimp only
  rw [if_neg ?_]
  · exact hlock
  · intro hlocki
    rw [hlock] at hlocki
    cases hlocki
    rw [hi] at hj
    cases hj

lemma Inv.finish (h : Inv s t) {i : ℕ} {result : Result} (hresult : result.Exclusive) :
    Inv s (t.finish i result) := by
  have hgoto : Inv s (t.goto i (.returned result)) := by
    refine h.goto (by simp [Phase.job]) (by simp [Phase.holds]) (by simp) ?_
    intro result' heq
    cases heq
    exact hresult
  exact hgoto.unlock (by simp [State.goto,Phase.holds])

lemma exclusive_of_not_rows {result : Result} (h : ∀ rows, result ≠ .rows rows) :
    result.Exclusive :=
  fun rows heq => absurd heq (h rows)

/-- A pointer that the holder of the lock puts in place. -/
lemma Inv.place (h : Inv s t) {i : ℕ} (hlock : t.lock = some i) {m : Members} {e : Entry}
    (hm : decodeEntry m = .ok e) (hrec : Recorded s t.disk.revisions e) {result : Result}
    (hresult : ∀ rows, result ≠ .rows rows) :
    Inv s ({ t with disk := { t.disk with pointer := some m } }.finish i result) := by
  have hmoved : Inv s (t.goto i (.returned result)) := by
    refine h.goto (by simp [Phase.job]) (by simp [Phase.holds]) (by simp) ?_
    intro result' heq
    cases heq
    exact exclusive_of_not_rows hresult
  have hplaced : Inv s { t.goto i (.returned result) with
    disk := { t.disk with pointer := some m } } := by
    refine ⟨?_,hmoved.checked,hmoved.lock,?_,hmoved.rows⟩
    · intro m' hm'
      cases hm'
      exact ⟨e,hm,hrec⟩
    · intro j job pointer hj
      have hheld := hmoved.lock j
        (by rw [show (t.goto i (.returned result)).procs j = .loaded job pointer from hj]; rfl)
      have hji : j = i := by
        have : t.lock = some j := hheld
        rw [hlock] at this
        exact (Option.some.inj this).symm
      rw [hji] at hj
      simp [State.goto] at hj
  exact hplaced.unlock (by simp [State.goto,Phase.holds])

lemma Inv.extend (h : Inv s t) {d' : Disk} (hmore : Extends t.disk.revisions d'.revisions)
    (hpointer : d'.pointer = t.disk.pointer) : Inv s { t with disk := d' } := by
  refine ⟨?_,fun i job hj => (h.checked i job hj).mono hmore,h.lock,?_,h.rows⟩
  · intro m hm
    rw [hpointer] at hm
    obtain ⟨e,he,hrec⟩ := h.sound m hm
    exact ⟨e,he,hrec.mono hmore⟩
  · intro i job pointer hi
    rw [hpointer]
    exact h.fresh i job pointer hi

lemma Inv.begin (h : Inv s t) (i : ℕ) (call : Call) : Inv s (s.begin t i call) := by
  have henter : ∀ x : Except String Store.Job,
    (∀ job, x = .ok job → Checked s t.disk.revisions job) →
      Inv s (Store.begin.enter t i x) := by
    intro x hx
    cases x with
    | error e => exact h.finish (exclusive_of_not_rows (by simp))
    | ok job =>
      refine h.goto ?_ (by simp [Phase.holds]) (by simp) (by simp)
      intro job' hjob
      cases hjob
      exact hx job rfl
  have hscan : ∀ get, Inv s (Store.begin.scan t i get) := by
    intro get
    unfold Store.begin.scan
    split_ifs
    · exact h.finish (exclusive_of_not_rows (by simp))
    · exact h.goto (by simp [Phase.job]) (by simp [Phase.holds]) (by simp) (by simp)
  cases call with
  | put p => exact h
  | approve revision sha => exact henter _ (fun job hjob => setStatus_checked hjob)
  | promote revision sha => exact henter _ (fun job hjob => setStatus_checked hjob)
  | revoke revision sha => exact henter _ (fun job hjob => setStatus_checked hjob)
  | setStability revision sha st => exact henter _ (fun job hjob => setStability_checked hjob)
  | list => exact hscan none
  | get revision =>
    simp only [Store.begin]
    split_ifs
    · exact h.finish (exclusive_of_not_rows (by simp))
    · exact hscan (some revision)

lemma answer_exclusive {get : Option String} {names : List String} {pointer : Option Members}
    {revisions : Table String Bytes} :
    (Store.answer get (s.listIdentity names pointer revisions)).Exclusive := by
  intro rows heq e he e' he' ha ha'
  cases hlist : s.listIdentity names pointer revisions with
  | error err =>
    rw [hlist] at heq
    cases heq
  | ok all =>
    rw [hlist] at heq
    cases get with
    | none =>
      cases heq
      exact listIdentity_exclusive hlist he he' ha ha'
    | some revision =>
      simp only [Store.answer] at heq
      split at heq <;> cases heq

lemma Inv.step (h : Inv s t) {i : ℕ} {move : Move} (hu : s.step t i move = some u) : Inv s u := by
  have hfail : ∀ e, Inv s (t.finish i (.failed e)) :=
    fun e => h.finish (exclusive_of_not_rows (by simp))
  cases move with
  | call call =>
    have hcall : Inv s (t.goto i (.called call)) :=
      h.goto (by simp [Phase.job]) (by simp [Phase.holds]) (by simp) (by simp)
    simp only [Store.step] at hu
    split at hu
    · split at hu
      · split_ifs at hu
        cases hu
        exact hcall
      · cases hu
        exact hcall
    · split at hu
      · split_ifs at hu
        cases hu
        exact hcall
      · cases hu
        exact hcall
    · cases hu
  | advance fails =>
    simp only [Store.step] at hu
    cases hphase : t.procs i with
    | idle =>
      rw [hphase] at hu
      cases hu
    | called call =>
      cases call with
      | put p =>
        rw [hphase] at hu
        cases hu
      | _ =>
        rw [hphase] at hu
        cases fails with
        | some e =>
          cases hu
          exact hfail e
        | none =>
          cases hu
          exact h.begin i _
    | waiting job =>
      rw [hphase] at hu
      dsimp only at hu
      split_ifs at hu with hfree
      cases hu
      have hjob := h.checked i job (by rw [hphase]; rfl)
      have hlocked : Inv s { t with lock := some i } := by
        refine ⟨h.sound,h.checked,?_,h.fresh,h.rows⟩
        intro j hj
        have := h.lock j hj
        rw [hfree] at this
        cases this
      refine hlocked.goto ?_ (fun _ => rfl) (by simp) (by simp)
      intro job' heq
      cases heq
      exact hjob
    | locked job =>
      rw [hphase] at hu
      cases fails with
      | some e =>
        cases hu
        exact hfail e
      | none =>
        cases hu
        refine h.goto ?_ (fun _ => h.lock i (by rw [hphase]; rfl)) ?_ (by simp)
        · intro job' heq
          cases heq
          exact h.checked i job (by rw [hphase]; rfl)
        · intro job' pointer heq
          cases heq
          rfl
    | loaded job pointer =>
      rw [hphase] at hu
      cases hu
    | scanned get names =>
      rw [hphase] at hu
      cases fails with
      | some e =>
        cases hu
        exact hfail e
      | none =>
        cases hu
        exact h.goto (by simp [Phase.job]) (by simp [Phase.holds]) (by simp) (by simp)
    | pointed get names pointer =>
      rw [hphase] at hu
      cases fails with
      | some e =>
        cases hu
        exact hfail e
      | none =>
        cases hu
        exact h.finish answer_exclusive
    | returned result =>
      rw [hphase] at hu
      cases hu
  | giveUp e =>
    simp only [Store.step] at hu
    split at hu
    · cases hu
      exact hfail e
    · cases hu
  | publish written =>
    simp only [Store.step] at hu
    split at hu
    · rename_i p hphase
      cases hu
      unfold Store.publishRevision
      split
      · exact hfail _
      · cases hput : s.put t.disk p with
        | error e => exact hfail e
        | ok both =>
          obtain ⟨d',e⟩ := both
          obtain ⟨hmore,hpointer⟩ := put_extends hput
          have hextend := h.extend hmore hpointer
          dsimp only
          split
          · exact hextend.finish (exclusive_of_not_rows (by simp))
          · exact hextend.finish (exclusive_of_not_rows (by simp))
    · rename_i job pointer hphase
      have hlock := h.lock i (by rw [hphase]; rfl)
      have hpointer := h.fresh i job pointer hphase
      cases hnew : s.rewrite pointer job with
      | error e =>
        rw [hnew] at hu
        cases hu
        exact hfail e
      | ok m =>
        rw [hnew] at hu
        cases hu
        rw [hpointer] at hnew
        obtain ⟨e,he,hrec,_⟩ := rewrite_recorded h.sound
          (h.checked i job (by rw [hphase]; rfl)) hnew
        cases written with
        | refused err => exact hfail err
        | done => exact h.place hlock he hrec (by simp)
        | unsynced err => exact h.place hlock he hrec (by simp)
    · cases hu
  | die =>
    cases hu
    have hidle : Inv s (t.goto i .idle) :=
      h.goto (by simp [Phase.job]) (by simp [Phase.holds]) (by simp) (by simp)
    exact hidle.unlock (by simp [State.goto,Phase.holds])

theorem Run.inv {hist : List Did} (run : Run s hist t) : Inv s t := by
  induction run with
  | start =>
    exact ⟨by simp [Sound,Store.start],by simp [Store.start,Phase.job],
      by simp [Store.start,Phase.holds],
      by simp [Store.start],by simp [Store.start]⟩
  | step _ i move h ih => exact ih.step h

end

end Manvi.Catalog
