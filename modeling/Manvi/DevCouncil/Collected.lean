import Manvi.DevCouncil.Lines

/-! The values and notes of secret files: just where the bound on all bytes is met quietly they do
not depend on the writes, and no credential of a file is lost without a note. -/
namespace Manvi.DevCouncil
open Manvi.Encoding

section cut
variable {limits : ScanLimits} {r : Reading} {writes : List Bytes} {t : ℕ}

/-- A part of a file with the note of the bound after so many bytes of it. -/
def Reading.cutAt (limits : ScanLimits) (r : Reading) (part : Bytes) (j : ℕ) : Reading :=
  (((r.feedLines limits (part.take j)).noteTotal (cutBound limits r.sink.path)).feedLines limits
    (part.drop j)).mark
    limits.secretTotalBytes true

/-- Once the bound is met and noted, nothing changes. -/
lemma writes_spent (hspent : r.scan.exhausted = true) (hcut : r.sink.truncated = true)
    (hnoted : r.scan.noted "total_cap" r.sink.path = true) :
    writes.foldl (Reading.write limits) r = r := by
  induction writes with
  | nil => rfl
  | cons p writes ih =>
    have hsame : r.write limits p = r := by
      have hscan : r.scan.noteBound "total_cap" r.sink.path (totalBound limits) = r.scan :=
        if_pos hnoted
      have hsink : ({ r.sink with truncated := true } : ValueSink) = r.sink := by rw [← hcut]
      rw [Reading.write,if_pos hspent,hscan,hsink]
    rw [List.foldl_cons,hsame]
    exact ih

lemma noted_grown {path kind file : String} {v v' : ValueScan} (h : Grown path v v')
    (hn : v.noted kind file = true) :
    v'.noted kind file = true := by
  obtain ⟨new,hnew,_⟩ := h.notes
  obtain ⟨n,hmem,hsame⟩ := noted_iff.mp hn
  exact noted_iff.mpr ⟨n,by rw [hnew]; exact List.mem_append_left _ hmem,hsame⟩

@[simp] lemma noted_self (v : ValueScan) (n : ScanNote) :
    (v.noteOnce n).noted n.kind n.file = true := by
  unfold ValueScan.noteOnce
  split_ifs with h
  · exact h
  · exact noted_iff.mpr ⟨n,by simp,rfl,rfl⟩

lemma path_feedLines (limits : ScanLimits) (r : Reading) (p : Bytes) :
    (r.feedLines limits p).sink.path = r.sink.path := (more_feedLines limits r p).path

/-- The bound is noted whatever part of the file is read after it. -/
lemma noted_cut (limits : ScanLimits) (r : Reading) (bound : String) (p : Bytes) :
    ((r.noteTotal bound).feedLines limits p).scan.noted "total_cap" r.sink.path = true :=
  noted_grown (more_feedLines limits (r.noteTotal bound) p).scan (noted_self r.scan
    (totalNote r.scan r.sink.path bound))

/-- Writes that meet the bound note it somewhere in the part there is room for. -/
lemma writes_cut (h : r.Calm limits) (ht : t ≤ limits.secretTotalBytes)
    (hcut : limits.secretTotalBytes < t+writes.flatten.length) :
    ∃ j, writes.foldl (Reading.write limits) (r.mark t false)
      = r.cutAt limits (writes.flatten.take (limits.secretTotalBytes-t)) j := by
  induction writes generalizing r t with
  | nil =>
    rw [List.flatten_nil,List.length_nil] at hcut
    omega
  | cons p writes ih =>
    rw [List.flatten_cons,List.length_append] at hcut
    by_cases hfits : t+p.length ≤ limits.secretTotalBytes
    · obtain ⟨j,hj⟩ := ih (h.feedLines p) hfits (by omega)
      refine ⟨p.length+j,?_⟩
      have hpart : (p ++ writes.flatten).take (limits.secretTotalBytes-t)
          = p ++ writes.flatten.take (limits.secretTotalBytes-(t+p.length)) := by
        rw [List.take_append,List.take_of_length_le (by omega),Nat.sub_sub]
      rw [List.foldl_cons,write_fits h hfits,hj,List.flatten_cons,hpart]
      simp only [Reading.cutAt,path_feedLines,feedLines_append]
      have htake : ∀ q : Bytes, (p ++ q).take (p.length+j) = p ++ q.take j := fun q => by
        rw [List.take_append,List.take_of_length_le (by omega),Nat.add_sub_cancel_left]
      have hdrop : ∀ q : Bytes, (p ++ q).drop (p.length+j) = q.drop j := fun q => by
        rw [← List.drop_drop,List.drop_left]
      rw [htake,hdrop]
    · refine ⟨0,?_⟩
      have hpart : (p ++ writes.flatten).take (limits.secretTotalBytes-t) = p.take
        (limits.secretTotalBytes-t) :=
        List.take_append_of_le_length (by omega)
      have hnoted := noted_cut limits r (cutBound limits r.sink.path)
        (p.take (limits.secretTotalBytes-t))
      have hpath := path_feedLines limits (r.noteTotal (cutBound limits r.sink.path))
        (p.take (limits.secretTotalBytes-t))
      rw [List.foldl_cons,write_cut h (by omega) ht,writes_spent rfl rfl (by
        simp only [Reading.mark]
        rw [hpath]
        exact hnoted),List.flatten_cons,hpart,Reading.cutAt,List.take_zero,feedLines_nil h,
          List.drop_zero]

/-- Where the part before the bound adds nothing, it does not matter when the bound is noted. -/
lemma cutAt_unmoved {part : Bytes} (h : r.Calm limits)
    (hquiet : Unmoved r.scan (r.feedLines limits part).scan)
    (j : ℕ) : r.cutAt limits part j = r.cutAt limits part 0 := by
  have hsplit : r.feedLines limits part = (r.feedLines limits (part.take j)).feedLines limits
    (part.drop j) := by
    rw [feedLines_append,List.take_append_drop]
  have hfirst := more_feedLines limits r (part.take j)
  have hrest := (more_feedLines limits (r.feedLines limits (part.take j)) (part.drop j)).scan
  rw [hsplit] at hquiet
  rw [hfirst.path] at hrest
  have hpart := (Unmoved.of_grown hfirst.scan hrest hquiet).1
  rw [Reading.cutAt,Reading.cutAt,← feedLines_noteTotal hpart,feedLines_append,
    List.take_append_drop,List.take_zero,
    feedLines_nil h,List.drop_zero]

end cut
/-- A line that adds no note and no value: one that is too long is noted already, and a value is
known or its bound is noted. -/
def QuietLine (limits : ScanLimits) (v : ValueScan) (path : String) (l : Bytes) : Prop :=
  if limits.secretLineBytes < l.length then v.noted "line_cap" path = true
  else ∀ value, credentialOf l = some value →
    (v.values.get value).isSome = true ∨
    (limits.secretValues ≤ v.values.size ∧ v.noted "value_cap" path = true)

/-- A part of a file whose lines are quiet, the one that is cut only by its length. -/
def QuietPart (limits : ScanLimits) (v : ValueScan) (path : String) (part : Bytes) : Prop :=
  (∀ l ∈ (cutLines part).1, QuietLine limits v path l)
  ∧ (limits.secretLineBytes < (cutLines part).2.length → v.noted "line_cap" path = true)

section quiet
variable {limits : ScanLimits} {v v' : ValueScan} {r : Reading} {path : String} {l : Bytes}

/-- A reading at the start of a line. -/
structure LineStart (r : Reading) : Prop where
  line : r.sink.line = []
  skipping : ¬ r.sink.skipping = true

lemma LineStart.calm (h : LineStart r) : r.Calm limits := by
  rw [Reading.Calm,h.line]
  exact Nat.zero_le _

/-- What one line does to the scan. -/
def lineScan (limits : ScanLimits) (v : ValueScan) (path : String) (lineNo : ℕ) (l : Bytes) :
    ValueScan :=
  if limits.secretLineBytes < l.length then v.noteBound "line_cap" path (lineBound limits lineNo)
    else v.collect limits path lineNo l

lemma line_fresh (limits : ScanLimits) (h : LineStart r) (l : Bytes) :
    (r.line limits l).scan = lineScan limits r.scan r.sink.path (r.sink.lineNo+1) l ∧
    LineStart (r.line limits l) := by
  rw [Reading.line,lineScan]
  have hline : r.sink.line ++ l = l := by rw [h.line,List.nil_append]
  by_cases hlong : limits.secretLineBytes < l.length
  · rw [extend_long h.skipping (by rw [hline]; exact hlong),if_pos hlong]
    exact ⟨rfl,⟨rfl,by simp [Reading.endLine]⟩⟩
  · rw [extend_short h.skipping (by rw [hline]; exact hlong),if_neg hlong]
    simp only [Reading.endLine,if_neg h.skipping,Reading.flush,hline]
    exact ⟨trivial,⟨rfl,h.skipping⟩⟩

lemma unmoved_noteOnce_iff {n : ScanNote} :
    Unmoved v (v.noteOnce n) ↔ v.noted n.kind n.file = true := by
  constructor
  · exact fun h => noted_of_unmoved h.notes
  · intro h
    rw [noteOnce_of_noted h]
    exact ⟨rfl,rfl⟩

/-- A line adds nothing just when it is quiet. -/
lemma unmoved_lineScan_iff (lineNo : ℕ) :
    Unmoved v (lineScan limits v path lineNo l) ↔ QuietLine limits v path l := by
  unfold lineScan QuietLine
  by_cases hlong : limits.secretLineBytes < l.length
  · rw [if_pos hlong,if_pos hlong]
    exact unmoved_noteOnce_iff
  · rw [if_neg hlong,if_neg hlong]
    obtain ⟨hline,he⟩ | ⟨value,hline,⟨hknown,he⟩ | ⟨hnew,hroom,he⟩ | ⟨hnew,hfull,he⟩⟩ :=
      collect_cases limits v path lineNo l
    · rw [he,hline]
      exact ⟨fun _ _ h => (by cases h),fun _ => ⟨rfl,rfl⟩⟩
    · rw [he,hline]
      refine ⟨fun _ x hx => ?_,fun _ => ⟨rfl,size_set_known hknown⟩⟩
      cases hx
      exact .inl hknown
    · rw [he,hline]
      constructor
      · intro h
        have := h.size
        rw [Table.size_set_of_none hnew] at this
        omega
      · intro h
        obtain hknown | ⟨hfull,_⟩ := h value rfl
        · rw [hnew] at hknown
          cases hknown
        · omega
    · rw [he,hline]
      constructor
      · intro h x hx
        cases hx
        exact .inr ⟨hfull,noted_of_unmoved (v := { v with full := true }) h.notes⟩
      · intro h
        obtain hknown | ⟨_,hnoted⟩ := h value rfl
        · rw [hnew] at hknown
          cases hknown
        · have hsame : ({ v with full := true } : ValueScan).noteBound "value_cap" path
            (valueBound limits lineNo path)
              = { v with full := true } := if_pos hnoted
          rw [hsame]
          exact ⟨rfl,rfl⟩

/-- Where no value was added, the same are known. -/
lemma known_of_unmoved (h : Grown path v v') (hsame : Unmoved v v') (x : Bytes) :
    (v'.values.get x).isSome = true ↔ (v.values.get x).isSome = true := by
  refine ⟨fun hx => ?_,h.keys x⟩
  have hsub : v.values.keys ⊆ v'.values.keys := by
    intro y hy
    rw [← Table.isSome_get] at hy ⊢
    exact h.keys y hy
  have hlen : ∀ m : Table Bytes String, m.keys.length = m.size :=
    fun m => by simp [Table.keys,Table.size]
  have hperm := (List.subperm_of_subset v.values.nodup_keys hsub).perm_of_length_le (by rw [hlen,
    hlen,hsame.size])
  rw [Table.isSome_get] at hx ⊢
  exact hperm.mem_iff.mpr hx

lemma quietLine_of_unmoved (h : Grown path v v') (hsame : Unmoved v v') :
    QuietLine limits v' path l ↔ QuietLine limits v path l := by
  have hnoted : ∀ kind, v'.noted kind path = v.noted kind path := fun kind => by
    rw [ValueScan.noted,ValueScan.noted,hsame.notes]
  unfold QuietLine
  simp only [hnoted,hsame.size,known_of_unmoved h hsame]

lemma unmoved_lines_iff {lines : List Bytes} (hr : LineStart r) :
    Unmoved r.scan (lines.foldl (Reading.line limits) r).scan ↔ ∀ l ∈ lines,
    QuietLine limits r.scan r.sink.path l := by
  induction lines generalizing r with
  | nil => exact ⟨fun _ _ h => (by cases h),fun _ => ⟨rfl,rfl⟩⟩
  | cons l lines ih =>
    have hmore := more_line limits r l
    have hrest := (more_lines limits (r.line limits l) lines).scan
    rw [hmore.path] at hrest
    obtain ⟨hscan,hfresh⟩ := line_fresh limits hr l
    have hfirst : Unmoved r.scan (r.line limits l).scan ↔
      QuietLine limits r.scan r.sink.path l := by
      rw [hscan]
      exact unmoved_lineScan_iff _
    have hih := ih hfresh
    rw [hmore.path] at hih
    rw [List.foldl_cons,List.forall_mem_cons]
    constructor
    · intro h
      obtain ⟨hone,hmany⟩ := Unmoved.of_grown hmore.scan hrest h
      exact ⟨hfirst.mp hone,fun x hx => (quietLine_of_unmoved hmore.scan hone).mp
        (hih.mp hmany x hx)⟩
    · rintro ⟨hone,hmany⟩
      have hunmoved := hfirst.mpr hone
      have hlater := hih.mpr (fun x hx => (quietLine_of_unmoved hmore.scan hunmoved).mpr
        (hmany x hx))
      exact ⟨hlater.notes.trans hunmoved.notes,hlater.size.trans hunmoved.size⟩

lemma fresh_lines (limits : ScanLimits) (lines : List Bytes) (hr : LineStart r) :
    LineStart (lines.foldl (Reading.line limits) r) := by
  induction lines generalizing r with
  | nil => exact hr
  | cons l lines ih => exact ih (line_fresh limits hr l).2

/-- A part of a file adds nothing just when it is quiet. -/
lemma unmoved_feedLines_iff {part : Bytes} (hr : LineStart r) :
    Unmoved r.scan (r.feedLines limits part).scan ↔ QuietPart limits r.scan r.sink.path part := by
  have hmore := more_lines limits r (cutLines part).1
  have hfresh := fresh_lines limits (cutLines part).1 hr
  have hlast := (more_extend limits ((cutLines part).1.foldl (Reading.line limits) r)
    (cutLines part).2).scan
  rw [hmore.path] at hlast
  have hend : ∀ w : Reading, LineStart w →
    (Unmoved w.scan (w.extend limits (cutLines part).2).scan ↔
      (limits.secretLineBytes < (cutLines part).2.length →
        w.scan.noted "line_cap" w.sink.path = true)) := by
    intro w hw
    have hline : w.sink.line ++ (cutLines part).2 = (cutLines part).2 := by rw [hw.line,
      List.nil_append]
    by_cases hlong : limits.secretLineBytes < (cutLines part).2.length
    · rw [extend_long hw.skipping (by rw [hline]; exact hlong)]
      exact unmoved_noteOnce_iff.trans ⟨fun h _ => h,fun h => h hlong⟩
    · rw [extend_short hw.skipping (by rw [hline]; exact hlong)]
      exact ⟨fun _ h => (hlong h).elim,fun _ => ⟨rfl,rfl⟩⟩
  have hend' := hend _ hfresh
  rw [hmore.path] at hend'
  unfold QuietPart
  rw [← unmoved_lines_iff hr]
  constructor
  · intro h
    obtain ⟨hone,hmany⟩ := Unmoved.of_grown hmore.scan hlast h
    refine ⟨hone,fun hlong => ?_⟩
    have := hend'.mp hmany hlong
    rwa [ValueScan.noted,hone.notes] at this
  · rintro ⟨hone,hmany⟩
    have hlater := hend'.mpr (fun hlong => by
      rw [ValueScan.noted,hone.notes]
      exact hmany hlong)
    exact ⟨hlater.notes.trans hone.notes,hlater.size.trans hone.size⟩

end quiet
/-- What can be read of a file. -/
def SecretFile.read (f : SecretFile) : Bytes := if f.openErr.isSome then [] else f.body

/-- The bytes of a file as they are written: in pieces, none of which is empty. -/
structure Writes (f : SecretFile) (writes : List Bytes) : Prop where
  some : ∀ p ∈ writes, p ≠ []
  bytes : writes.flatten = f.read

def wholeWrites (p : Bytes) : List Bytes := if p = [] then [] else [p]

lemma writes_whole (f : SecretFile) : Writes f (wholeWrites f.read) := by
  unfold wholeWrites
  split_ifs with h
  · exact ⟨fun _ h => (by cases h),by rw [h]; rfl⟩
  · refine ⟨fun p hp => ?_,by simp⟩
    obtain rfl := List.mem_singleton.mp hp
    exact h

section files
variable {limits : ScanLimits} {v : ValueScan} {f : SecretFile} {writes : List Bytes} {n : ℕ}

/-- A file before anything is read of it. -/
def start (v : ValueScan) (path : String) : Reading := ⟨v,⟨path,[],0,false,false⟩⟩

lemma fresh_start (v : ValueScan) (path : String) : LineStart (start v path) :=
    ⟨rfl,by simp [start]⟩

/-- The scan after so many bytes in all. -/
def Bounded (limits : ScanLimits) (v : ValueScan) (n : ℕ) : Prop :=
  if n ≤ limits.secretTotalBytes then v.exhausted = false ∧ v.total = n else v.exhausted = true

lemma start_mark (h : Bounded limits v n) (hn : n ≤ limits.secretTotalBytes) (path : String) :
    start v path = (start v path).mark n false := by
  rw [Bounded,if_pos hn] at h
  obtain ⟨values,total,exhausted,full,notes⟩ := v
  obtain ⟨rfl,rfl⟩ := h
  rfl

lemma reading_fits (h : Bounded limits v n) (hw : Writes f writes)
    (hn : n+f.read.length ≤ limits.secretTotalBytes) :
    writes.foldl (Reading.write limits) (start v f.path)
      = ((start v f.path).feedLines limits f.read).mark (n+f.read.length) false := by
  rw [← hw.bytes] at hn ⊢
  rw [start_mark h (by omega),writes_fit (fresh_start v f.path).calm hn,feedLines_mark]
  rfl

lemma reading_cut (h : Bounded limits v n) (hw : Writes f writes) (hn : n ≤ limits.secretTotalBytes)
    (hcut : limits.secretTotalBytes < n+f.read.length) :
    ∃ j, writes.foldl (Reading.write limits) (start v f.path)
      = (start v f.path).cutAt limits (f.read.take (limits.secretTotalBytes-n)) j := by
  rw [← hw.bytes] at hcut ⊢
  rw [start_mark h hn]
  obtain ⟨j,hj⟩ := writes_cut (r := start v f.path) (fresh_start v f.path).calm hn hcut
  refine ⟨j,hj.trans ?_⟩
  rw [← start_mark h hn]

lemma reading_spent (h : Bounded limits v n) (hw : Writes f writes)
    (hn : limits.secretTotalBytes < n) :
    writes.foldl (Reading.write limits) (start v f.path) = if f.read = [] then start v f.path
      else ⟨v.noteBound "total_cap" f.path (totalBound limits),⟨f.path,[],0,false,true⟩⟩ := by
  rw [Bounded,if_neg (by omega)] at h
  cases writes with
  | nil =>
    have hnil : f.read = [] := by
      rw [← hw.bytes]
      rfl
    rw [if_pos hnil]
    rfl
  | cons p writes =>
    have hsome : f.read ≠ [] := by
      rw [← hw.bytes,List.flatten_cons]
      exact List.append_ne_nil_of_left_ne_nil (hw.some p List.mem_cons_self) _
    have hwrite : (start v f.path).write limits p
        = ⟨v.noteBound "total_cap" f.path (totalBound limits),⟨f.path,[],0,false,true⟩⟩ := if_pos h
    have hspent : (v.noteBound "total_cap" f.path (totalBound limits)).exhausted = true := by
      unfold ValueScan.noteBound ValueScan.noteOnce
      split_ifs <;> exact h
    rw [if_neg hsome,List.foldl_cons,hwrite]
    exact writes_spent hspent rfl (noted_self v _)

/-- How the reading of a file ends. -/
def Reading.finish (limits : ScanLimits) (f : SecretFile) (r : Reading) : ValueScan :=
  match f.readErr with
  | some err => r.scan.noteUnreadable f.path f.tracked err
  | none => (r.close limits).scan

lemma readValues_opened (h : f.openErr = none) :
    readValues limits v f writes = (writes.foldl (Reading.write limits)
      (start v f.path)).finish limits f := by
  rw [readValues,h]
  rfl

lemma read_opened (h : f.openErr = none) : f.read = f.body := by
  rw [SecretFile.read,h]
  rfl

/-- A file that meets the bound meets it quietly, after so many bytes. -/
def QuietCut (limits : ScanLimits) (v : ValueScan) (n : ℕ) (f : SecretFile) : Prop :=
  n ≤ limits.secretTotalBytes → limits.secretTotalBytes < n+f.read.length →
    QuietPart limits v f.path (f.read.take (limits.secretTotalBytes-n))

/-- Where the bound is met quietly, what is collected does not depend on the writes. -/
lemma readValues_eq (h : Bounded limits v n) (hw : Writes f writes)
    (hquiet : QuietCut limits v n f) :
    readValues limits v f writes = readValues limits v f (wholeWrites f.read) := by
  cases hopen : f.openErr with
  | some err =>
    rw [readValues,readValues,hopen]
  | none =>
    rw [readValues_opened hopen,readValues_opened hopen]
    by_cases hle : n ≤ limits.secretTotalBytes
    · by_cases hfits : n+f.read.length ≤ limits.secretTotalBytes
      · rw [reading_fits h hw hfits,reading_fits h (writes_whole f) hfits]
      · have hcut := Nat.lt_of_not_le hfits
        have hunmoved := (unmoved_feedLines_iff (fresh_start v f.path)).mpr (hquiet hle hcut)
        obtain ⟨j,hj⟩ := reading_cut h hw hle hcut
        obtain ⟨j',hj'⟩ := reading_cut h (writes_whole f) hle hcut
        rw [hj,hj',cutAt_unmoved (fresh_start v f.path).calm hunmoved j,
          cutAt_unmoved (fresh_start v f.path).calm hunmoved j']
    · rw [reading_spent h hw (by omega),reading_spent h (writes_whole f) (by omega)]

/-- What later files keep: the notes, and the values. -/
structure Kept (v v' : ValueScan) : Prop where
  notes : v.notes <+: v'.notes
  keys : ∀ x, (v.values.get x).isSome = true → (v'.values.get x).isSome = true

lemma Kept.refl (v : ValueScan) : Kept v v := ⟨List.prefix_refl _,fun _ h => h⟩

lemma Kept.trans {v' v'' : ValueScan} (h : Kept v v') (h' : Kept v' v'') : Kept v v'' :=
  ⟨h.notes.trans h'.notes,fun x hx => h'.keys x (h.keys x hx)⟩

lemma Kept.noted {v' : ValueScan} {kind file : String} (h : Kept v v')
    (hn : v.noted kind file = true) : v'.noted kind file = true := by
  obtain ⟨m,hm,hsame⟩ := noted_iff.mp hn
  exact noted_iff.mpr ⟨m,h.notes.subset hm,hsame⟩

lemma Grown.kept {path : String} {v' : ValueScan} (h : Grown path v v') : Kept v v' := by
  obtain ⟨new,hnew,_⟩ := h.notes
  exact ⟨⟨new,hnew.symm⟩,h.keys⟩

lemma kept_noteOnce (v : ValueScan) (m : ScanNote) : Kept v (v.noteOnce m) := by
  unfold ValueScan.noteOnce
  split_ifs
  · exact Kept.refl v
  · exact ⟨List.prefix_append _ _,fun _ h => h⟩

lemma kept_mark (r : Reading) (t : ℕ) (cut : Bool) : Kept r.scan (r.mark t cut).scan :=
    ⟨List.prefix_refl _,fun _ h => h⟩

lemma kept_close (r : Reading) : Kept r.scan (r.close limits).scan := by
  unfold Reading.close
  split_ifs
  · exact (grown_collect _ _).kept
  · exact Kept.refl _

lemma kept_finish (f : SecretFile) (r : Reading) : Kept r.scan (r.finish limits f) := by
  unfold Reading.finish
  cases f.readErr with
  | some err => exact kept_noteOnce _ _
  | none => exact kept_close r

lemma kept_cutAt (r : Reading) (part : Bytes) (j : ℕ) :
    Kept r.scan (r.cutAt limits part j).scan := by
  have hfirst := (more_feedLines limits r (part.take j)).scan.kept
  have hnote := kept_noteOnce (r.feedLines limits (part.take j)).scan
    (totalNote (r.feedLines limits (part.take j)).scan (r.feedLines limits (part.take j)).sink.path
      (cutBound limits r.sink.path))
  have hrest := (more_feedLines limits ((r.feedLines limits (part.take j)).noteTotal
    (cutBound limits r.sink.path))
    (part.drop j)).scan.kept
  exact (hfirst.trans (hnote.trans hrest)).trans (kept_mark _ _ _)

lemma kept_reading (h : Bounded limits v n) (hw : Writes f writes) :
    Kept v (writes.foldl (Reading.write limits) (start v f.path)).scan := by
  by_cases hle : n ≤ limits.secretTotalBytes
  · by_cases hfits : n+f.read.length ≤ limits.secretTotalBytes
    · rw [reading_fits h hw hfits]
      exact (more_feedLines limits (start v f.path) f.read).scan.kept.trans (kept_mark _ _ _)
    · obtain ⟨j,hj⟩ := reading_cut h hw hle (Nat.lt_of_not_le hfits)
      rw [hj]
      exact kept_cutAt (start v f.path) _ j
  · rw [reading_spent h hw (by omega)]
    split_ifs
    · exact Kept.refl v
    · exact kept_noteOnce v _

lemma kept_readValues (h : Bounded limits v n) (hw : Writes f writes) :
    Kept v (readValues limits v f writes) := by
  cases hopen : f.openErr with
  | some err =>
    rw [readValues,hopen]
    exact kept_noteOnce v _
  | none =>
    rw [readValues_opened hopen]
    exact (kept_reading h hw).trans (kept_finish f _)

lemma bounded_noteOnce {m : ℕ} (h : Bounded limits v m) (x : ScanNote) :
    Bounded limits (v.noteOnce x) m := by
  unfold ValueScan.noteOnce
  split_ifs
  · exact h
  · exact h

lemma bounded_finish {m : ℕ} {r : Reading} (h : Bounded limits r.scan m) :
    Bounded limits (r.finish limits f) m := by
  unfold Reading.finish
  cases f.readErr with
  | some err => exact bounded_noteOnce h _
  | none =>
    simp only [Reading.close]
    split_ifs
    · simp only [Reading.flush]
      obtain ⟨_,he⟩ | ⟨value,_,⟨_,he⟩ | ⟨_,_,he⟩ | ⟨_,_,he⟩⟩ :=
        collect_cases limits r.scan r.sink.path (r.sink.lineNo+1) r.sink.line
      · rwa [he]
      · rw [he]
        exact h
      · rw [he]
        exact h
      · rw [he]
        exact bounded_noteOnce (v := { r.scan with full := true }) h _
    · exact h

lemma bounded_readValues (h : Bounded limits v n) (hw : Writes f writes) :
    Bounded limits (readValues limits v f writes) (n+f.read.length) := by
  cases hopen : f.openErr with
  | some err =>
    have hnil : f.read = [] := by simp [SecretFile.read,hopen]
    rw [readValues,hopen,hnil]
    exact bounded_noteOnce h _
  | none =>
    rw [readValues_opened hopen]
    apply bounded_finish
    by_cases hle : n ≤ limits.secretTotalBytes
    · by_cases hfits : n+f.read.length ≤ limits.secretTotalBytes
      · rw [reading_fits h hw hfits,Bounded,if_pos hfits]
        exact ⟨rfl,rfl⟩
      · obtain ⟨j,hj⟩ := reading_cut h hw hle (Nat.lt_of_not_le hfits)
        rw [hj,Bounded,if_neg hfits]
        rfl
    · rw [reading_spent h hw (by omega),Bounded,if_neg (by omega)]
      rw [Bounded,if_neg hle] at h
      split_ifs
      · exact h
      · unfold ValueScan.noteBound ValueScan.noteOnce
        split_ifs
        · exact h
        · exact h

end files
end Manvi.DevCouncil
