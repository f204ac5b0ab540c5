import Manvi.DevCouncil.Collected

/-! What is collected of all secret files, for every way their bytes are delivered. -/
namespace Manvi.DevCouncil
open Manvi.Encoding

/-- The files in order, each with what is written of it. -/
abbrev Delivery := List (SecretFile × List Bytes)

/-- The scan of all files. -/
def collectFrom (limits : ScanLimits) (v : ValueScan) (d : Delivery) : ValueScan :=
  d.foldl (fun v e => readValues limits v e.1 e.2) v

def collected (limits : ScanLimits) (d : Delivery) : ValueScan := collectFrom limits .new d

/-- The bytes of these files, in some writes. -/
structure Delivers (files : List SecretFile) (d : Delivery) : Prop where
  files : d.map Prod.fst = files
  writes : ∀ e ∈ d, Writes e.1 e.2

/-- Each file in one write. -/
def whole (files : List SecretFile) : Delivery := files.map (fun f => (f,wholeWrites f.read))

def bytesRead (files : List SecretFile) : ℕ := (files.map (fun f => f.read.length)).sum

/-- The kinds of notes that say that something of a file was not read. -/
def lossKinds : List String := ["line_cap","total_cap","value_cap","unreadable_worktree"]

/-- A value was collected, or a note names the file. -/
def Accounted (v : ValueScan) (path : String) (value : Bytes) : Prop :=
  (v.values.get value).isSome = true ∨ ∃ n ∈ v.notes, n.file = path ∧ n.kind ∈ lossKinds

/-- What is collected is the same for all writes, and every credential of every file is accounted
for. -/
structure Collects (limits : ScanLimits) (files : List SecretFile) : Prop where
  same : ∀ d d', Delivers files d → Delivers files d' →
    (collected limits d).values = (collected limits d').values ∧
    (collected limits d).notes = (collected limits d').notes
  accounted : ∀ d, Delivers files d → ∀ f ∈ files, ∀ l ∈ (cutLines f.body).1 ++
    [(cutLines f.body).2],
    ∀ value, credentialOf l = some value → Accounted (collected limits d) f.path value

section accounted
variable {limits : ScanLimits} {v v' : ValueScan} {r : Reading} {f : SecretFile}
    {writes : List Bytes} {n : ℕ}
  {path : String} {value l : Bytes}

lemma accounted_of_noted {kind : String} (hkind : kind ∈ lossKinds) (h : v.noted kind path = true) :
    Accounted v path value := by
  obtain ⟨m,hm,rfl,hfile⟩ := noted_iff.mp h
  exact .inr ⟨m,hm,hfile,hkind⟩

lemma accounted_noteBound (v : ValueScan) {kind : String} (hkind : kind ∈ lossKinds)
    (path bound : String) (value : Bytes) :
    Accounted (v.noteBound kind path bound) path value := by
  have hnoted := noted_self v ⟨kind,path,bound,ValueScan.stillSearched v.values.size,operatorOnly⟩
  exact accounted_of_noted hkind hnoted

lemma accounted_noteUnreadable (v : ValueScan) (path : String) (tracked : Bool) (err : String)
    (value : Bytes) :
    Accounted (v.noteUnreadable path tracked err) path value := by
  have hkind : "unreadable_worktree" ∈ lossKinds := by decide
  exact accounted_of_noted hkind (noted_self v ⟨"unreadable_worktree",path,_,_,_⟩)

lemma Accounted.kept (h : Accounted v path value) (hk : Kept v v') : Accounted v' path value := by
  obtain h | ⟨m,hm,hsame⟩ := h
  · exact .inl (hk.keys value h)
  · exact .inr ⟨m,hk.notes.subset hm,hsame⟩

lemma accounted_collect (lineNo : ℕ) (h : credentialOf l = some value) :
    Accounted (v.collect limits path lineNo l) path value := by
  obtain ⟨hnone,_⟩ | ⟨x,hx,hcases⟩ := collect_cases limits v path lineNo l
  · rw [hnone] at h
    cases h
  · obtain rfl : x = value := Option.some.inj (hx.symm.trans h)
    obtain ⟨_,he⟩ | ⟨_,_,he⟩ | ⟨_,_,he⟩ := hcases
    · rw [he]
      exact .inl (by rw [Table.get_set,if_pos rfl]; rfl)
    · rw [he]
      exact .inl (by rw [Table.get_set,if_pos rfl]; rfl)
    · rw [he]
      exact accounted_noteBound _ (by decide) path _ x

lemma accounted_lineScan (lineNo : ℕ) (h : credentialOf l = some value) :
    Accounted (lineScan limits v path lineNo l) path value := by
  unfold lineScan
  split_ifs
  · exact accounted_noteBound v (by decide) path _ value
  · exact accounted_collect lineNo h

lemma accounted_lines {lines : List Bytes} (hr : LineStart r) (hl : l ∈ lines)
    (h : credentialOf l = some value) :
    Accounted (lines.foldl (Reading.line limits) r).scan r.sink.path value := by
  induction lines generalizing r with
  | nil => cases hl
  | cons x lines ih =>
    obtain ⟨hscan,hfresh⟩ := line_fresh limits hr x
    rw [List.foldl_cons]
    obtain rfl | hl := List.mem_cons.mp hl
    · have hfirst : Accounted (r.line limits l).scan r.sink.path value := by
        rw [hscan]
        exact accounted_lineScan _ h
      exact hfirst.kept (more_lines limits (r.line limits l) lines).scan.kept
    · have hlater := ih hfresh hl
      rwa [(more_line limits r x).path] at hlater

/-- An empty line assigns nothing. -/
lemma line_ne_nil (h : credentialOf l = some value) : l ≠ [] := by
  rintro rfl
  cases h

/-- A whole file, its last line too. -/
lemma accounted_close {p : Bytes} {t : ℕ} (hr : LineStart r)
    (hl : l ∈ (cutLines p).1 ++ [(cutLines p).2]) (h : credentialOf l = some value) :
    Accounted ((((r.feedLines limits p).mark t false)).close limits).scan r.sink.path value := by
  obtain hl | hl := List.mem_append.mp hl
  · have hended : Accounted ((cutLines p).1.foldl (Reading.line limits) r).scan r.sink.path value :=
      accounted_lines hr hl h
    have hlast := (more_extend limits ((cutLines p).1.foldl (Reading.line limits) r)
      (cutLines p).2).scan.kept
    exact (hended.kept hlast).kept ((kept_mark _ t false).trans (kept_close _))
  · obtain rfl := List.mem_singleton.mp hl
    have hfresh := fresh_lines limits (cutLines p).1 hr
    have hpath := (more_lines limits r (cutLines p).1).path
    have hline : ((cutLines p).1.foldl (Reading.line limits) r).sink.line ++
      (cutLines p).2 = (cutLines p).2 := by
      rw [hfresh.line,List.nil_append]
    unfold Reading.feedLines
    by_cases hlong : limits.secretLineBytes < (cutLines p).2.length
    · rw [extend_long hfresh.skipping (by rw [hline]; exact hlong),← hpath]
      have hnoted := accounted_noteBound ((cutLines p).1.foldl (Reading.line limits) r).scan
        (show "line_cap" ∈ lossKinds by decide)
        ((cutLines p).1.foldl (Reading.line limits) r).sink.path
        (lineBound limits (((cutLines p).1.foldl (Reading.line limits) r).sink.lineNo+1)) value
      exact hnoted.kept ((kept_mark ⟨_,_⟩ t false).trans (kept_close _))
    · rw [extend_short hfresh.skipping (by rw [hline]; exact hlong),hline,← hpath]
      unfold Reading.close
      rw [if_pos ⟨line_ne_nil h,by simp [Reading.mark]⟩]
      exact accounted_collect _ h

/-- Every credential of a file is accounted for once it is read. -/
lemma accounted_readValues (hv : Bounded limits v n) (hw : Writes f writes)
    (hl : l ∈ (cutLines f.body).1 ++ [(cutLines f.body).2])
    (h : credentialOf l = some value) : Accounted (readValues limits v f writes) f.path value := by
  cases hopen : f.openErr with
  | some err =>
    rw [readValues,hopen]
    exact accounted_noteUnreadable v f.path f.tracked err value
  | none =>
    rw [readValues_opened hopen]
    by_cases hle : n ≤ limits.secretTotalBytes
    · by_cases hfits : n+f.read.length ≤ limits.secretTotalBytes
      · rw [reading_fits hv hw hfits,read_opened hopen,Reading.finish]
        cases f.readErr with
        | some err => exact accounted_noteUnreadable _ f.path f.tracked err value
        | none => exact accounted_close (fresh_start v f.path) hl h
      · obtain ⟨j,hj⟩ := reading_cut hv hw hle (Nat.lt_of_not_le hfits)
        rw [hj]
        have hnoted := noted_cut limits ((start v f.path).feedLines limits
          ((f.read.take (limits.secretTotalBytes-n)).take j))
          (cutBound limits f.path) ((f.read.take (limits.secretTotalBytes-n)).drop j)
        rw [path_feedLines] at hnoted
        exact (accounted_of_noted (show "total_cap" ∈ lossKinds by decide) hnoted).kept
          ((kept_mark _ limits.secretTotalBytes true).trans (kept_finish f _))
    · have hsome : f.read ≠ [] := by
        rw [read_opened hopen]
        intro hnil
        rw [hnil] at hl
        exact line_ne_nil h (List.mem_singleton.mp hl)
      rw [reading_spent hv hw (by omega),if_neg hsome]
      have hnoted := accounted_noteBound v (show "total_cap" ∈ lossKinds by decide) f.path
        (totalBound limits) value
      exact hnoted.kept (kept_finish f ⟨_,_⟩)

end accounted

section all
variable {limits : ScanLimits} {v : ValueScan} {n : ℕ} {d : Delivery}

@[simp] lemma bytesRead_cons (f : SecretFile) (files : List SecretFile) :
    bytesRead (f :: files) = f.read.length+bytesRead files := rfl

lemma kept_collectFrom (hv : Bounded limits v n) (hw : ∀ e ∈ d, Writes e.1 e.2) :
    Kept v (collectFrom limits v d) := by
  induction d generalizing v n with
  | nil => exact Kept.refl v
  | cons e d ih =>
    rw [List.forall_mem_cons] at hw
    exact (kept_readValues hv hw.1).trans (ih (bounded_readValues hv hw.1) hw.2)

lemma bounded_collectFrom (hv : Bounded limits v n) (hw : ∀ e ∈ d, Writes e.1 e.2) :
    Bounded limits (collectFrom limits v d) (n+bytesRead (d.map Prod.fst)) := by
  induction d generalizing v n with
  | nil => exact hv
  | cons e d ih =>
    rw [List.forall_mem_cons] at hw
    rw [List.map_cons,bytesRead_cons,← Nat.add_assoc]
    exact ih (bounded_readValues hv hw.1) hw.2

lemma accounted_collectFrom (hv : Bounded limits v n) (hw : ∀ e ∈ d, Writes e.1 e.2)
    {f : SecretFile} (hf : f ∈ d.map Prod.fst)
    {l value : Bytes} (hl : l ∈ (cutLines f.body).1 ++ [(cutLines f.body).2])
    (h : credentialOf l = some value) :
    Accounted (collectFrom limits v d) f.path value := by
  induction d generalizing v n with
  | nil => cases hf
  | cons e d ih =>
    rw [List.forall_mem_cons] at hw
    have hlater := bounded_readValues hv hw.1
    obtain rfl | hf := List.mem_cons.mp hf
    · exact (accounted_readValues hv hw.1 hl h).kept (kept_collectFrom hlater hw.2)
    · exact ih hlater hw.2 hf

lemma bounded_new (limits : ScanLimits) : Bounded limits .new 0 := by
  rw [Bounded,if_pos (Nat.zero_le _)]
  exact ⟨rfl,rfl⟩

lemma delivers_whole (files : List SecretFile) : Delivers files (whole files) := by
  constructor
  · unfold whole
    rw [List.map_map]
    exact List.map_id _
  · intro e he
    obtain ⟨f,_,rfl⟩ := List.mem_map.mp he
    exact writes_whole f

/-- Where every file meets the bound quietly, the files may as well come whole. -/
lemma collectFrom_eq (hv : Bounded limits v n) (hw : ∀ e ∈ d, Writes e.1 e.2)
    (hquiet : ∀ pre f post, d.map Prod.fst = pre ++ f :: post →
      QuietCut limits (collectFrom limits v (whole pre)) (n+bytesRead pre) f) :
    collectFrom limits v d = collectFrom limits v (whole (d.map Prod.fst)) := by
  induction d generalizing v n with
  | nil => rfl
  | cons e d ih =>
    rw [List.forall_mem_cons] at hw
    have hfirst := readValues_eq hv hw.1 (hquiet [] e.1 (d.map Prod.fst) rfl)
    have hstep : collectFrom limits v (e :: d) = collectFrom limits (readValues limits v e.1
      (wholeWrites e.1.read)) d := by
      rw [← hfirst]
      rfl
    rw [hstep]
    refine ih (bounded_readValues hv (writes_whole e.1)) hw.2 ?_
    intro pre f post hfiles
    have := hquiet (e.1 :: pre) f post (by rw [List.map_cons,hfiles]; rfl)
    rwa [bytesRead_cons,← Nat.add_assoc] at this

/-- Before the bound is met it is not noted. -/
def NoTotal (v : ValueScan) : Prop := ∀ m ∈ v.notes, m.kind ≠ "total_cap"

lemma noTotal_noteOnce {m : ScanNote} (h : NoTotal v) (hkind : m.kind ≠ "total_cap") :
    NoTotal (v.noteOnce m) := by
  unfold ValueScan.noteOnce
  split_ifs
  · exact h
  · intro x hx
    obtain hx | hx := List.mem_append.mp hx
    · exact h x hx
    · obtain rfl := List.mem_singleton.mp hx
      exact hkind

lemma noTotal_noteUnreadable (h : NoTotal v) (path : String) (tracked : Bool) (err : String) :
    NoTotal (v.noteUnreadable path tracked err) := by
  have hkind : ("unreadable_worktree" : String) ≠ "total_cap" := by decide
  exact noTotal_noteOnce h hkind

lemma NoTotal.grown {path : String} {v' : ValueScan} (h : NoTotal v) (hg : Grown path v v') :
    NoTotal v' := by
  obtain ⟨new,hnew,hkind⟩ := hg.notes
  intro x hx
  rw [hnew] at hx
  obtain hx | hx := List.mem_append.mp hx
  · exact h x hx
  · exact (hkind x hx).2

lemma noTotal_finish {f : SecretFile} {r : Reading} (h : NoTotal r.scan) :
    NoTotal (r.finish limits f) := by
  unfold Reading.finish
  cases f.readErr with
  | some err => exact noTotal_noteUnreadable h f.path f.tracked err
  | none =>
    simp only [Reading.close]
    split_ifs
    · exact h.grown (grown_collect _ _)
    · exact h

lemma noTotal_readValues {f : SecretFile} {writes : List Bytes} (hv : Bounded limits v n)
    (h : NoTotal v) (hw : Writes f writes)
    (hfits : n+f.read.length ≤ limits.secretTotalBytes) :
    NoTotal (readValues limits v f writes) := by
  cases hopen : f.openErr with
  | some err =>
    rw [readValues,hopen]
    exact noTotal_noteUnreadable h f.path f.tracked err
  | none =>
    rw [readValues_opened hopen,reading_fits hv hw hfits]
    apply noTotal_finish
    have hlines : NoTotal ((start v f.path).feedLines limits f.read).scan :=
      NoTotal.grown h (more_feedLines limits (start v f.path) f.read).scan
    exact hlines

lemma noTotal_collectFrom (hv : Bounded limits v n) (h : NoTotal v) (hw : ∀ e ∈ d, Writes e.1 e.2)
    (hfits : n+bytesRead (d.map Prod.fst) ≤ limits.secretTotalBytes) :
    NoTotal (collectFrom limits v d) := by
  induction d generalizing v n with
  | nil => exact h
  | cons e d ih =>
    rw [List.forall_mem_cons] at hw
    rw [List.map_cons,bytesRead_cons,← Nat.add_assoc] at hfits
    exact ih (bounded_readValues hv hw.1) (noTotal_readValues hv h hw.1 (by omega)) hw.2 hfits

end all

section apart
variable {limits : ScanLimits} {v : ValueScan} {n : ℕ} {f : SecretFile}

/-- The number in a note can be read back. -/
lemma stillSearched_inj {a b : ℕ} (h : ValueScan.stillSearched a = ValueScan.stillSearched b) :
    a = b := by
  unfold ValueScan.stillSearched at h
  have hnum : toString a = toString b := by
    have hchars := congrArg String.toList h
    simp only [String.toList_append,List.append_assoc,List.append_cancel_left_eq,
      List.append_cancel_right_eq] at hchars
    exact String.toList_injective hchars
  exact Nat.repr_injective hnum

/-- Two lists that go on alike hold the same entry at the same place. -/
lemma eq_of_continued {α : Type} {a new rest : List α} {x y : α} (h : a ++ [x] <+: rest)
    (h' : a ++ (new ++ [y]) <+: rest)
    (hnew : x ∉ new) : new = [] ∧ x = y := by
  obtain ⟨b,rfl⟩ := h
  obtain ⟨c,hc⟩ := h'
  rw [List.append_assoc,List.append_assoc,List.append_assoc,List.append_cancel_left_eq] at hc
  cases new with
  | nil => exact ⟨rfl,(List.cons.inj hc).1.symm⟩
  | cons z new =>
    have : z = x := (List.cons.inj hc).1
    exact (hnew (by rw [this]; exact List.mem_cons_self)).elim

/-- Where the part before the bound comes in one write with more, the bound is noted first; where it
comes alone, last. -/
lemma notes_wholeWrites (hv : Bounded limits v n) (hopen : f.openErr = none)
    (hle : n ≤ limits.secretTotalBytes)
    (hcut : limits.secretTotalBytes < n+f.read.length) (hfree : NoTotal v) :
    v.notes ++ [totalNote v f.path (cutBound limits f.path)] <+: (readValues limits v f
      (wholeWrites f.read)).notes := by
  have hsome : f.read ≠ [] := by
    intro hnil
    rw [hnil,List.length_nil] at hcut
    omega
  have hnot : ¬ v.noted "total_cap" f.path = true := by
    intro hnoted
    obtain ⟨m,hm,hkind,_⟩ := noted_iff.mp hnoted
    exact hfree m hm hkind
  have hwrite : (wholeWrites f.read).foldl (Reading.write limits) (start v f.path)
      = (((start v f.path).noteTotal (cutBound limits f.path)).feedLines limits
        (f.read.take (limits.secretTotalBytes-n))).mark
        limits.secretTotalBytes true := by
    rw [wholeWrites,if_neg hsome,List.foldl_cons,List.foldl_nil,start_mark hv hle,
      write_cut (fresh_start v f.path).calm hcut hle,
      ← start_mark hv hle]
    rfl
  have hfirst : ((start v f.path).noteTotal (cutBound limits f.path)).scan.notes
      = v.notes ++ [totalNote v f.path (cutBound limits f.path)] := by
    rw [noteTotal_scan]
    exact congrArg ValueScan.notes
      (noteOnce_of_not (n := totalNote v f.path (cutBound limits f.path)) hnot)
  rw [readValues_opened hopen,hwrite,← hfirst]
  have hkept := (more_feedLines limits ((start v f.path).noteTotal (cutBound limits f.path))
    (f.read.take (limits.secretTotalBytes-n))).scan.kept
  exact (hkept.trans ((kept_mark _ limits.secretTotalBytes true).trans (kept_finish f _))).notes

/-- The part before the bound, and what follows it. -/
def partWrites (limits : ScanLimits) (n : ℕ) (p : Bytes) : List Bytes :=
  [p.take (limits.secretTotalBytes-n),p.drop (limits.secretTotalBytes-n)]

lemma writes_part (hlt : n < limits.secretTotalBytes)
    (hcut : limits.secretTotalBytes < n+f.read.length) :
    Writes f (partWrites limits n f.read) := by
  constructor
  · intro p hp
    have hlen : 0 < p.length := by
      simp only [partWrites,List.mem_cons,List.not_mem_nil,or_false] at hp
      obtain rfl | rfl := hp
      · rw [List.length_take]
        omega
      · rw [List.length_drop]
        omega
    exact List.ne_nil_of_length_pos hlen
  · simp [partWrites]

lemma notes_partWrites (hv : Bounded limits v n) (hopen : f.openErr = none)
    (hlt : n < limits.secretTotalBytes)
    (hcut : limits.secretTotalBytes < n+f.read.length) (hfree : NoTotal v) :
    ∃ w, w = ((start v f.path).feedLines limits (f.read.take (limits.secretTotalBytes-n))).scan ∧
      w.notes ++ [totalNote w f.path (cutBound limits f.path)] <+: (readValues limits v f
        (partWrites limits n f.read)).notes := by
  refine ⟨_,rfl,?_⟩
  have hlen : (f.read.take (limits.secretTotalBytes-n)).length = limits.secretTotalBytes-n := by
    rw [List.length_take]
    omega
  have hfits : n+(f.read.take (limits.secretTotalBytes-n)).length =
    limits.secretTotalBytes := by omega
  have hcalm : (start v f.path).Calm limits := (fresh_start v f.path).calm
  have hfirst : (start v f.path).write limits (f.read.take (limits.secretTotalBytes-n))
      = ((start v f.path).feedLines limits
        (f.read.take (limits.secretTotalBytes-n))).mark limits.secretTotalBytes false := by
    rw [start_mark hv (by omega),write_fits hcalm (by omega),hfits,← start_mark hv (by omega)]
  have hcalm' := hcalm.feedLines (f.read.take (limits.secretTotalBytes-n))
  have hover : limits.secretTotalBytes < limits.secretTotalBytes+(f.read.drop
    (limits.secretTotalBytes-n)).length := by
    rw [List.length_drop]
    omega
  have hpath : ((start v f.path).feedLines limits
    (f.read.take (limits.secretTotalBytes-n))).sink.path = f.path := path_feedLines _ _ _
  have hwrite : (partWrites limits n f.read).foldl (Reading.write limits) (start v f.path)
      = (((start v f.path).feedLines limits (f.read.take (limits.secretTotalBytes-n))).noteTotal
        (cutBound limits f.path)).mark
        limits.secretTotalBytes true := by
    rw [partWrites,List.foldl_cons,List.foldl_cons,List.foldl_nil,hfirst,
      write_cut hcalm' hover le_rfl,Nat.sub_self,List.take_zero,
      hpath]
    exact congrArg (Reading.mark limits.secretTotalBytes true) (feedLines_nil hcalm')
  have hgrown := (more_feedLines limits (start v f.path)
    (f.read.take (limits.secretTotalBytes-n))).scan
  have hfree' : NoTotal ((start v f.path).feedLines limits
    (f.read.take (limits.secretTotalBytes-n))).scan := NoTotal.grown hfree hgrown
  have hnot : ¬ ((start v f.path).feedLines limits
    (f.read.take (limits.secretTotalBytes-n))).scan.noted "total_cap" f.path = true := by
    intro hnoted
    obtain ⟨m,hm,hkind,_⟩ := noted_iff.mp hnoted
    exact hfree' m hm hkind
  have hnotes : (((start v f.path).feedLines limits
    (f.read.take (limits.secretTotalBytes-n))).noteTotal (cutBound limits f.path)).scan.notes
      = ((start v f.path).feedLines limits (f.read.take (limits.secretTotalBytes-n))).scan.notes
        ++ [totalNote ((start v f.path).feedLines limits
          (f.read.take (limits.secretTotalBytes-n))).scan f.path (cutBound limits f.path)] := by
    rw [noteTotal_scan,hpath]
    exact congrArg ValueScan.notes
      (noteOnce_of_not (n := totalNote _ f.path (cutBound limits f.path)) hnot)
  rw [readValues_opened hopen,hwrite,← hnotes]
  exact ((kept_mark _ limits.secretTotalBytes true).trans (kept_finish f _)).notes

/-- Where both come to the same notes, the part before the bound was quiet. -/
lemma quiet_of_same_notes {rest : List ScanNote} (hv : Bounded limits v n)
    (hopen : f.openErr = none)
    (hlt : n < limits.secretTotalBytes) (hcut : limits.secretTotalBytes < n+f.read.length)
    (hfree : NoTotal v)
    (hone : (readValues limits v f (wholeWrites f.read)).notes <+: rest)
    (htwo : (readValues limits v f (partWrites limits n f.read)).notes <+: rest) :
    QuietPart limits v f.path (f.read.take (limits.secretTotalBytes-n)) := by
  obtain ⟨w,hw,hlast⟩ := notes_partWrites hv hopen hlt hcut hfree
  have hfirst := notes_wholeWrites hv hopen hlt.le hcut hfree
  have hgrown := (more_feedLines limits (start v f.path)
    (f.read.take (limits.secretTotalBytes-n))).scan
  rw [← hw] at hgrown
  obtain ⟨new,hnew,hkind⟩ := hgrown.notes
  change w.notes = v.notes ++ new at hnew
  rw [hnew,List.append_assoc] at hlast
  obtain ⟨hnil,hsame⟩ := eq_of_continued (hfirst.trans hone) (hlast.trans htwo) (fun h =>
    (hkind _ h).2 rfl)
  rw [hnil,List.append_nil] at hnew
  have hsize : v.values.size = w.values.size := by
    simp only [totalNote,ScanNote.mk.injEq] at hsame
    exact stillSearched_inj hsame.2.2.2.1
  refine (unmoved_feedLines_iff (fresh_start v f.path)).mp ?_
  rw [← hw]
  exact ⟨hnew,hsize.symm⟩

lemma quietPart_nil (limits : ScanLimits) (v : ValueScan) (path : String) :
    QuietPart limits v path [] :=
  ⟨fun _ h => (by cases h),fun h => (by cases h)⟩

end apart

@[simp] lemma collectFrom_append (limits : ScanLimits) (v : ValueScan) (d d' : Delivery) :
    collectFrom limits v (d ++ d') = collectFrom limits (collectFrom limits v d) d' :=
    List.foldl_append

/-- What is collected does not depend on the writes, and all credentials are accounted for, just
when no line of the file that meets the bound on all bytes, up to the bound, would be noted or add a
value. -/
theorem collects_iff (limits : ScanLimits) (files : List SecretFile) : Collects limits files ↔
    ∀ pre f post, files = pre ++ f :: post →
    QuietCut limits (collected limits (whole pre)) (bytesRead pre) f := by
  constructor
  · intro h pre f post hfiles hle hcut
    have hpre := delivers_whole pre
    have hv := bounded_collectFrom (bounded_new limits) hpre.writes
    rw [hpre.files,Nat.zero_add] at hv
    obtain hlt | heq := Nat.lt_or_eq_of_le hle
    · have hopen : f.openErr = none := by
        cases hopen : f.openErr with
        | none => rfl
        | some err =>
          rw [SecretFile.read,hopen] at hcut
          simp at hcut
          omega
      have hfree : NoTotal (collectFrom limits .new (whole pre)) := by
        refine noTotal_collectFrom (bounded_new limits) (fun _ h => (by cases h)) hpre.writes ?_
        rw [hpre.files,Nat.zero_add]
        exact hle
      have hdelivers : ∀ writes, Writes f writes →
        Delivers files (whole pre ++ (f,writes) :: whole post) := by
        intro writes hw
        constructor
        · rw [List.map_append,List.map_cons,hpre.files,(delivers_whole post).files,hfiles]
        · intro e he
          obtain he | he := List.mem_append.mp he
          · exact hpre.writes e he
          · obtain rfl | he := List.mem_cons.mp he
            · exact hw
            · exact (delivers_whole post).writes e he
      have hkept : ∀ writes, Writes f writes →
        (readValues limits (collectFrom limits .new (whole pre)) f writes).notes
          <+: (collected limits (whole pre ++ (f,writes) :: whole post)).notes := by
        intro writes hw
        rw [collected,collectFrom_append]
        exact (kept_collectFrom (bounded_readValues hv hw) (delivers_whole post).writes).notes
      have hwhole := writes_whole f
      have hpart := writes_part hlt hcut
      have hsame := (h.same _ _ (hdelivers _ hwhole) (hdelivers _ hpart)).2
      have hone := hkept _ hwhole
      rw [hsame] at hone
      exact quiet_of_same_notes hv hopen hlt hcut hfree hone (hkept _ hpart)
    · rw [heq,Nat.sub_self,List.take_zero]
      exact quietPart_nil _ _ _
  · intro h
    have hwhole : ∀ d, Delivers files d → collected limits d = collected limits (whole files) := by
      intro d hd
      have := collectFrom_eq (bounded_new limits) hd.writes (fun pre f post hfiles => by
        rw [Nat.zero_add]
        exact h pre f post (hd.files.symm.trans hfiles))
      rwa [hd.files] at this
    constructor
    · intro d d' hd hd'
      rw [hwhole d hd,hwhole d' hd']
      exact ⟨rfl,rfl⟩
    · intro d hd f hf l hl value hvalue
      refine accounted_collectFrom (bounded_new limits) hd.writes ?_ hl hvalue
      rwa [hd.files]

/-- A file with a credential, then the bound, then more: in one write the note comes before the
credential. -/
def boundFile : SecretFile := ⟨".env",true,none,ascii "KEY=abcdefgh\nrest",none⟩

theorem not_collects_at_bound : ¬ Collects ⟨1048576,13,4096⟩ [boundFile] := by
  intro h
  have hdelivers : ∀ writes, Writes boundFile writes → Delivers [boundFile] [(boundFile,writes)] :=
    fun writes hw =>
    ⟨rfl,fun e he => by obtain rfl := List.mem_singleton.mp he; exact hw⟩
  have hone : Writes boundFile [boundFile.body] := ⟨by decide,by decide⟩
  have htwo : Writes boundFile [boundFile.body.take 13,boundFile.body.drop 13] :=
    ⟨by decide,by decide⟩
  have hsame := (h.same _ _ (hdelivers _ hone) (hdelivers _ htwo)).2
  revert hsame
  decide +kernel

end Manvi.DevCouncil
