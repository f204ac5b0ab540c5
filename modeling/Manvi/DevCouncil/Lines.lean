import Manvi.DevCouncil.SecretValues

/-! The lines of a secret file do not depend on how it is written; only the note of the bound on all
bytes does. -/
namespace Manvi.DevCouncil
open Manvi.Encoding

/-- The lines that an LF ends, and what follows the last LF. -/
def cutLines : Bytes → List Bytes × Bytes
  | [] => ([],[])
  | c :: p =>
    if c = 10 then ([] :: (cutLines p).1,(cutLines p).2)
    else match cutLines p with
      | ([],last) => ([],c :: last)
      | (line :: lines,last) => ((c :: line) :: lines,last)

section cut
variable {p q l : Bytes}

lemma cutLines_plain (h : 10 ∉ p) : cutLines p = ([],p) := by
  induction p with
  | nil => rfl
  | cons c p ih =>
    rw [List.mem_cons,not_or] at h
    rw [cutLines,if_neg (Ne.symm h.1),ih h.2]

lemma cutLines_line (h : 10 ∉ l) (p : Bytes) :
    cutLines (l ++ 10 :: p) = (l :: (cutLines p).1,(cutLines p).2) := by
  induction l with
  | nil => rfl
  | cons c l ih =>
    rw [List.mem_cons,not_or] at h
    rw [List.cons_append,cutLines,if_neg (Ne.symm h.1),ih h.2]

/-- What follows the last LF goes on with the next bytes. -/
lemma cutLines_append (p q : Bytes) : cutLines (p ++ q) = match (cutLines q).1 with
    | [] => ((cutLines p).1,(cutLines p).2 ++ (cutLines q).2)
    | l :: lines => ((cutLines p).1 ++ ((cutLines p).2 ++ l) :: lines,(cutLines q).2) := by
  induction p with
  | nil =>
    cases hq : (cutLines q).1 with
    | nil => simp only [List.nil_append,cutLines,← hq]
    | cons l lines => simp only [List.nil_append,cutLines,← hq]
  | cons c p ih =>
    rw [List.cons_append,cutLines,cutLines,ih]
    by_cases hc : c = 10
    · simp only [if_pos hc]
      cases (cutLines q).1 <;> rfl
    · simp only [if_neg hc]
      obtain ⟨lines,last⟩ := cutLines p
      cases (cutLines q).1 <;> cases lines <;> rfl

end cut

section lines
variable (limits : ScanLimits) {r : Reading}

/-- A line with its end. -/
def Reading.line (r : Reading) (l : Bytes) : Reading := (r.extend limits l).endLine limits

/-- What is written, line by line. -/
def Reading.feedLines (r : Reading) (p : Bytes) : Reading :=
  ((cutLines p).1.foldl (Reading.line limits) r).extend limits (cutLines p).2

/-- The line held so far is within the bound. -/
def Reading.Calm (r : Reading) : Prop := r.sink.line.length ≤ limits.secretLineBytes

variable {limits}

lemma Reading.Calm.extend (h : r.Calm limits) (chunk : Bytes) :
    (r.extend limits chunk).Calm limits := by
  unfold Reading.extend
  split_ifs with hskip hlong
  · exact h
  · exact Nat.zero_le _
  · exact Nat.le_of_not_lt hlong

lemma Reading.Calm.endLine (h : r.Calm limits) : (r.endLine limits).Calm limits := by
  unfold Reading.endLine
  split_ifs
  · exact h
  · exact Nat.zero_le _

lemma Reading.Calm.foldl_line (h : r.Calm limits) (lines : List Bytes) :
    (lines.foldl (Reading.line limits) r).Calm limits := by
  induction lines generalizing r with
  | nil => exact h
  | cons l lines ih => exact ih (h.extend l).endLine

lemma Reading.Calm.feedLines (h : r.Calm limits) (p : Bytes) : (r.feedLines limits p).Calm limits :=
  (h.foldl_line _).extend _

lemma extend_nil (h : r.Calm limits) : r.extend limits [] = r := by
  unfold Reading.extend
  rw [List.append_nil,if_neg (Nat.not_lt.mpr h)]
  split_ifs <;> rfl

/-- A line may come in pieces. -/
@[simp] lemma extend_append (r : Reading) (a b : Bytes) :
    (r.extend limits a).extend limits b = r.extend limits (a ++ b) := by
  unfold Reading.extend
  by_cases hskip : r.sink.skipping = true
  · simp only [if_pos hskip]
  · simp only [if_neg hskip]
    by_cases hlong : limits.secretLineBytes < (r.sink.line ++ a).length
    · have hlonger : limits.secretLineBytes < (r.sink.line ++ (a ++ b)).length := by
        simp only [List.length_append] at hlong ⊢
        omega
      simp only [if_pos hlong,if_pos hlonger,if_true]
    · simp only [if_neg hlong,if_neg hskip,List.append_assoc]

lemma feedLines_nil (h : r.Calm limits) : r.feedLines limits [] = r := extend_nil h

/-- What is written may come in pieces. -/
@[simp] lemma feedLines_append (r : Reading) (p q : Bytes) :
    (r.feedLines limits p).feedLines limits q = r.feedLines limits (p ++ q) := by
  unfold Reading.feedLines
  rw [cutLines_append]
  cases (cutLines q).1 with
  | nil => exact extend_append _ _ _
  | cons l lines =>
    rw [List.foldl_cons,List.foldl_append,List.foldl_cons,Reading.line,extend_append]
    rfl

lemma feed_eq {n : ℕ} (h : r.Calm limits) {p : Bytes} (hn : p.length ≤ n) :
    Reading.feed limits n r p = r.feedLines limits p := by
  induction n generalizing r p with
  | zero =>
    obtain rfl : p = [] := List.length_eq_zero_iff.mp (by omega)
    exact (feedLines_nil h).symm
  | succ n ih =>
    rw [Reading.feed]
    by_cases hnil : p = []
    · rw [if_pos hnil,hnil,feedLines_nil h]
    · rw [if_neg hnil]
      by_cases hmem : 10 ∈ p
      · obtain ⟨l,rest,rfl,hl⟩ := List.eq_append_cons_of_mem hmem
        have htake : (l ++ 10 :: rest).takeWhile (· ≠ 10) = l := by
          rw [List.takeWhile_append_of_pos]
          · simp
          · intro x hx
            simp only [ne_eq,decide_not,Bool.not_eq_true',decide_eq_false_iff_not]
            rintro rfl
            exact hl hx
        have hdrop : ((l ++ 10 :: rest).dropWhile (· ≠ 10)).tail = rest := by
          rw [List.dropWhile_append_of_pos]
          · simp
          · intro x hx
            simp only [ne_eq,decide_not,Bool.not_eq_true',decide_eq_false_iff_not]
            rintro rfl
            exact hl hx
        have hless : rest.length ≤ n := by
          rw [List.length_append,List.length_cons] at hn
          omega
        rw [if_pos hmem,htake,hdrop,ih (h.extend l).endLine hless]
        simp only [Reading.feedLines,cutLines_line hl,List.foldl_cons]
        rfl
      · rw [if_neg hmem]
        simp only [Reading.feedLines,cutLines_plain hmem,List.foldl_nil]

/-- The same reading with other marks of what was read in all. -/
def Reading.mark (total : ℕ) (cut : Bool) (r : Reading) : Reading :=
  ⟨{ r.scan with total := total, exhausted := cut },{ r.sink with truncated := cut }⟩

lemma noteOnce_mark (v : ValueScan) (n : ScanNote) (total : ℕ) (cut : Bool) :
    ({ v with total := total, exhausted := cut } : ValueScan).noteOnce n = { v.noteOnce n with
      total := total, exhausted := cut } := by
  unfold ValueScan.noteOnce
  have hnoted : ({ v with total := total, exhausted := cut } : ValueScan).noted n.kind n.file =
    v.noted n.kind n.file := rfl
  rw [hnoted]
  split_ifs <;> rfl

lemma collect_mark (v : ValueScan) (path : String) (lineNo : ℕ) (line : Bytes) (total : ℕ)
    (cut : Bool) :
    ({ v with total := total, exhausted := cut } : ValueScan).collect limits path lineNo line
      = { v.collect limits path lineNo line with total := total, exhausted := cut } := by
  unfold ValueScan.collect
  cases credentialOf line with
  | none => rfl
  | some value =>
    simp only []
    split_ifs
    · exact noteOnce_mark { v with full := true } _ total cut
    · rfl

lemma extend_skip {chunk : Bytes} (h : r.sink.skipping = true) : r.extend limits chunk = r :=
    if_pos h

lemma extend_long {chunk : Bytes} (h : ¬ r.sink.skipping = true)
    (hlong : limits.secretLineBytes < (r.sink.line ++ chunk).length) :
    r.extend limits chunk = ⟨r.scan.noteBound "line_cap" r.sink.path
      (lineBound limits (r.sink.lineNo+1)),
      { r.sink with line := [], skipping := true }⟩ := (if_neg h).trans (if_pos hlong)

lemma extend_short {chunk : Bytes} (h : ¬ r.sink.skipping = true)
    (hlong : ¬ limits.secretLineBytes < (r.sink.line ++ chunk).length) :
    r.extend limits chunk = { r with sink := { r.sink with line := r.sink.line ++ chunk } } :=
    (if_neg h).trans (if_neg hlong)

lemma extend_mark (r : Reading) (chunk : Bytes) (total : ℕ) (cut : Bool) :
    (r.mark total cut).extend limits chunk = (r.extend limits chunk).mark total cut := by
  by_cases hskip : r.sink.skipping = true
  · rw [extend_skip hskip,extend_skip (r := r.mark total cut) hskip]
  · by_cases hlong : limits.secretLineBytes < (r.sink.line ++ chunk).length
    · rw [extend_long hskip hlong,extend_long (r := r.mark total cut) hskip hlong]
      exact congrArg (fun v => Reading.mk v _) (noteOnce_mark r.scan _ total cut)
    · rw [extend_short hskip hlong,extend_short (r := r.mark total cut) hskip hlong]
      rfl

lemma endLine_mark (r : Reading) (total : ℕ) (cut : Bool) :
    (r.mark total cut).endLine limits = (r.endLine limits).mark total cut := by
  by_cases hskip : r.sink.skipping = true
  · rw [Reading.endLine,Reading.endLine,if_pos hskip,
      if_pos (show (r.mark total cut).sink.skipping = true from hskip)]
    rfl
  · rw [Reading.endLine,Reading.endLine,if_neg hskip,
      if_neg (show ¬ (r.mark total cut).sink.skipping = true from hskip)]
    exact congrArg (fun v => Reading.mk v _) (collect_mark r.scan _ _ _ total cut)

/-- The lines do not depend on the marks. -/
lemma feedLines_mark (r : Reading) (p : Bytes) (total : ℕ) (cut : Bool) :
    (r.mark total cut).feedLines limits p = (r.feedLines limits p).mark total cut := by
  unfold Reading.feedLines
  rw [← extend_mark]
  congr 1
  induction (cutLines p).1 generalizing r with
  | nil => rfl
  | cons l lines ih =>
    have hline : (r.mark total cut).line limits l = (r.line limits l).mark total cut := by
      rw [Reading.line,extend_mark,endLine_mark]
      rfl
    rw [List.foldl_cons,hline,ih]
    rfl

@[simp] lemma mark_mark (r : Reading) (a b : ℕ) (c d : Bool) :
    (r.mark a c).mark b d = r.mark b d := rfl

lemma Reading.Calm.mark (h : r.Calm limits) (total : ℕ) (cut : Bool) :
    (r.mark total cut).Calm limits := h

/-- A write that leaves room, on a reading that nothing cut. -/
lemma write_fits {t : ℕ} {p : Bytes} (h : r.Calm limits)
    (hfits : t+p.length ≤ limits.secretTotalBytes) :
    (r.mark t false).write limits p = (r.feedLines limits p).mark (t+p.length) false := by
  have hroom : ¬ limits.secretTotalBytes-(r.mark t false).scan.total < p.length := by
    simp only [Reading.mark]
    omega
  have hopen : ¬ (r.mark t false).scan.exhausted = true := by simp [Reading.mark]
  rw [Reading.write,if_neg hopen,if_neg hroom,← feedLines_mark,← feed_eq (h.mark _ _) le_rfl]
  rfl

/-- Writes that leave room. -/
lemma writes_fit {t : ℕ} {writes : List Bytes} (h : r.Calm limits)
    (hfits : t+writes.flatten.length ≤ limits.secretTotalBytes) :
    writes.foldl (Reading.write limits) (r.mark t false) = (r.feedLines limits writes.flatten).mark
    (t+writes.flatten.length) false := by
  induction writes generalizing r t with
  | nil => rw [List.flatten_nil,feedLines_nil h]; rfl
  | cons p writes ih =>
    rw [List.flatten_cons,List.length_append] at hfits
    rw [List.foldl_cons,write_fits h (by omega),ih (h.feedLines p) (by omega),feedLines_append,
      List.flatten_cons,List.length_append,
      Nat.add_assoc]

/-- The note of the bound on all bytes, where it is met. -/
def Reading.noteTotal (r : Reading) (bound : String) : Reading :=
  { r with scan := r.scan.noteBound "total_cap" r.sink.path bound }

def cutBound (limits : ScanLimits) (path : String) : String :=
  totalBound limits ++ " (reading stopped in " ++ path ++ ")"

/-- The write that meets the bound is noted before what it has room for is read. -/
lemma write_cut {t : ℕ} {p : Bytes} (h : r.Calm limits)
    (hcut : limits.secretTotalBytes < t+p.length) (ht : t ≤ limits.secretTotalBytes) :
    (r.mark t false).write limits p
      = ((r.noteTotal (cutBound limits r.sink.path)).feedLines limits
        (p.take (limits.secretTotalBytes-t))).mark limits.secretTotalBytes true := by
  have hroom : limits.secretTotalBytes-(r.mark t false).scan.total < p.length := by
    simp only [Reading.mark]
    omega
  have hopen : ¬ (r.mark t false).scan.exhausted = true := by simp [Reading.mark]
  have hlen : (p.take (limits.secretTotalBytes-t)).length = limits.secretTotalBytes-t := by
    rw [List.length_take]
    omega
  have hcalm : ((r.noteTotal
    (cutBound limits r.sink.path)).mark limits.secretTotalBytes true).Calm limits := h
  have hnote : ({ (r.mark t false).scan with
    exhausted := true } : ValueScan).noteBound "total_cap" r.sink.path (cutBound limits r.sink.path)
      = { r.scan.noteBound "total_cap" r.sink.path (cutBound limits r.sink.path) with
        total := t, exhausted := true } :=
    noteOnce_mark r.scan _ t true
  rw [Reading.write,if_neg hopen,if_pos hroom,← feedLines_mark,← feed_eq hcalm le_rfl]
  refine congrArg (fun st => Reading.feed limits (p.take (limits.secretTotalBytes-t)).length st
    (p.take (limits.secretTotalBytes-t))) ?_
  refine congrArg (fun v => Reading.mk v { r.sink with truncated := true }) ?_
  refine (congrArg (fun v : ValueScan => { v with
    total := v.total+(p.take (limits.secretTotalBytes-t)).length }) hnote).trans ?_
  simp only [hlen,Nat.add_sub_cancel' ht]
  rfl

end lines

section grown
variable {limits : ScanLimits} {v v' : ValueScan} {r : Reading} {path : String}

lemma noted_iff {kind file : String} : v.noted kind file = true ↔ ∃ n ∈ v.notes, n.kind = kind ∧
    n.file = file := by
  simp [ValueScan.noted]

/-- What a scan has after more of a file: notes of the bounds on lines and values for the file, and
no value less. -/
structure Grown (path : String) (v v' : ValueScan) : Prop where
  notes : ∃ new, v'.notes = v.notes ++ new ∧ ∀ n ∈ new, n.file = path ∧ n.kind ≠ "total_cap"
  keys : ∀ x, (v.values.get x).isSome = true → (v'.values.get x).isSome = true
  size : v.values.size ≤ v'.values.size

lemma Grown.refl (path : String) (v : ValueScan) : Grown path v v :=
  ⟨⟨[],(List.append_nil _).symm,fun _ h => (by cases h)⟩,fun _ h => h,le_rfl⟩

lemma Grown.trans {v'' : ValueScan} (h : Grown path v v') (h' : Grown path v' v'') :
    Grown path v v'' := by
  obtain ⟨new,hnew,hkind⟩ := h.notes
  obtain ⟨new',hnew',hkind'⟩ := h'.notes
  refine ⟨⟨new ++ new',by rw [hnew',hnew,List.append_assoc],fun n hn => ?_⟩,
    fun x hx => h'.keys x (h.keys x hx),
    h.size.trans h'.size⟩
  obtain hn | hn := List.mem_append.mp hn
  · exact hkind n hn
  · exact hkind' n hn

lemma grown_noteBound (path : String) {kind : String} (hkind : kind ≠ "total_cap")
    (bound : String) : Grown path v (v.noteBound kind path bound) := by
  unfold ValueScan.noteBound ValueScan.noteOnce
  split_ifs
  · exact Grown.refl path v
  · refine ⟨⟨[_],rfl,fun n hn => ?_⟩,fun _ h => h,le_rfl⟩
    obtain rfl := List.mem_singleton.mp hn
    exact ⟨rfl,hkind⟩

/-- What a line that assigns a value comes to. -/
lemma collect_cases (limits : ScanLimits) (v : ValueScan) (path : String) (lineNo : ℕ)
    (line : Bytes) :
    (credentialOf line = none ∧ v.collect limits path lineNo line = v)
    ∨ ∃ value, credentialOf line = some value ∧
      (((v.values.get value).isSome = true ∧ v.collect limits path lineNo line = { v with
        values := v.values.set value path })
      ∨ (v.values.get value = none ∧ v.values.size < limits.secretValues
        ∧ v.collect limits path lineNo line = { v with values := v.values.set value path })
      ∨ (v.values.get value = none ∧ limits.secretValues ≤ v.values.size
        ∧ v.collect limits path lineNo line = { v with
          full := true }.noteBound "value_cap" path (valueBound limits lineNo path))) := by
  unfold ValueScan.collect
  cases hline : credentialOf line with
  | none => exact .inl ⟨rfl,rfl⟩
  | some value =>
    refine .inr ⟨value,rfl,?_⟩
    simp only []
    cases hget : v.values.get value with
    | some held => exact .inl ⟨rfl,if_neg (by simp)⟩
    | none =>
      by_cases hfull : limits.secretValues ≤ v.values.size
      · exact .inr (.inr ⟨rfl,hfull,if_pos ⟨rfl,hfull⟩⟩)
      · exact .inr (.inl ⟨rfl,Nat.lt_of_not_le hfull,if_neg (fun h => hfull h.2)⟩)

lemma keys_set (value : Bytes) (x : Bytes) (h : (v.values.get x).isSome = true) :
    ((v.values.set value path).get x).isSome = true := by
  rw [Table.get_set]
  split_ifs
  · rfl
  · exact h

lemma size_set_known {value : Bytes} (h : (v.values.get value).isSome = true) :
    (v.values.set value path).size = v.values.size := by
  obtain ⟨old,hold⟩ := Option.isSome_iff_exists.mp h
  exact Table.size_set_of_some hold path

lemma size_le_set (value : Bytes) : v.values.size ≤ (v.values.set value path).size := by
  cases h : v.values.get value with
  | none =>
    rw [Table.size_set_of_none h]
    omega
  | some old => rw [Table.size_set_of_some h]

lemma grown_collect (lineNo : ℕ) (line : Bytes) :
    Grown path v (v.collect limits path lineNo line) := by
  have hset : ∀ value, Grown path v { v with values := v.values.set value path } := fun value =>
    ⟨⟨[],(List.append_nil _).symm,fun _ h => (by cases h)⟩,keys_set value,size_le_set value⟩
  obtain ⟨_,he⟩ | ⟨value,_,⟨_,he⟩ | ⟨_,_,he⟩ | ⟨_,_,he⟩⟩ := collect_cases limits v path lineNo line
  · rw [he]
    exact Grown.refl path v
  · rw [he]
    exact hset value
  · rw [he]
    exact hset value
  · rw [he]
    have hnote := grown_noteBound (v := { v with full := true }) path (show ("value_cap" : String) ≠
      "total_cap" by decide)
      (valueBound limits lineNo path)
    exact ⟨hnote.notes,hnote.keys,hnote.size⟩

/-- More of a file, by what it does to the scan and to the file. -/
structure More (r r' : Reading) : Prop where
  path : r'.sink.path = r.sink.path
  scan : Grown r.sink.path r.scan r'.scan

lemma More.trans {r' r'' : Reading} (h : More r r') (h' : More r' r'') : More r r'' :=
  ⟨h'.path.trans h.path,h.scan.trans (h.path ▸ h'.scan)⟩

lemma more_extend (limits : ScanLimits) (r : Reading) (chunk : Bytes) :
    More r (r.extend limits chunk) := by
  by_cases hskip : r.sink.skipping = true
  · rw [extend_skip hskip]
    exact ⟨rfl,Grown.refl _ _⟩
  · by_cases hlong : limits.secretLineBytes < (r.sink.line ++ chunk).length
    · rw [extend_long hskip hlong]
      exact ⟨rfl,grown_noteBound _ (by decide) _⟩
    · rw [extend_short hskip hlong]
      exact ⟨rfl,Grown.refl _ _⟩

lemma more_endLine (limits : ScanLimits) (r : Reading) : More r (r.endLine limits) := by
  unfold Reading.endLine
  split_ifs
  · exact ⟨rfl,Grown.refl _ _⟩
  · exact ⟨rfl,grown_collect _ _⟩

lemma more_line (limits : ScanLimits) (r : Reading) (l : Bytes) : More r (r.line limits l) :=
    (more_extend limits r l).trans (more_endLine limits _)

lemma more_lines (limits : ScanLimits) (r : Reading) (lines : List Bytes) :
    More r (lines.foldl (Reading.line limits) r) := by
  induction lines generalizing r with
  | nil => exact ⟨rfl,Grown.refl _ _⟩
  | cons l lines ih => exact (more_line limits r l).trans (ih _)

lemma more_feedLines (limits : ScanLimits) (r : Reading) (p : Bytes) :
    More r (r.feedLines limits p) := (more_lines limits r _).trans (more_extend limits _ _)

/-- No note and no value was added. -/
structure Unmoved (v v' : ValueScan) : Prop where
  notes : v'.notes = v.notes
  size : v'.values.size = v.values.size

/-- What adds nothing in all adds nothing on the way. -/
lemma Unmoved.of_grown {v'' : ValueScan} (h : Grown path v v') (h' : Grown path v' v'')
    (hall : Unmoved v v'') :
    Unmoved v v' ∧ Unmoved v' v'' := by
  obtain ⟨new,hnew,_⟩ := h.notes
  obtain ⟨new',hnew',_⟩ := h'.notes
  have hsize := h.size
  have hsize' := h'.size
  have hall' := hall.size
  have hlen := hall.notes
  rw [hnew',hnew] at hlen
  have hnil := congrArg List.length hlen
  simp only [List.length_append] at hnil
  have hnew_nil : new = [] := List.length_eq_zero_iff.mp (by omega)
  have hnew'_nil : new' = [] := List.length_eq_zero_iff.mp (by omega)
  rw [hnew_nil,List.append_nil] at hnew
  rw [hnew'_nil,List.append_nil] at hnew'
  exact ⟨⟨hnew,by omega⟩,⟨hnew',by omega⟩⟩

/-- A note that is not made again. -/
lemma noteOnce_of_noted {n : ScanNote} (h : v.noted n.kind n.file = true) : v.noteOnce n = v :=
    if_pos h

lemma noteOnce_of_not {n : ScanNote} (h : ¬ v.noted n.kind n.file = true) :
    v.noteOnce n = { v with notes := v.notes ++ [n] } := if_neg h

/-- Where a bound adds no note, it was noted. -/
lemma noted_of_unmoved {n : ScanNote} (h : (v.noteOnce n).notes = v.notes) :
    v.noted n.kind n.file = true := by
  by_contra hnot
  rw [noteOnce_of_not hnot] at h
  have := congrArg List.length h
  simp at this

lemma noted_noteOnce {n m : ScanNote} (h : v.noted m.kind m.file = true) :
    (v.noteOnce n).noted m.kind m.file = true := by
  unfold ValueScan.noteOnce
  split_ifs
  · exact h
  · rw [noted_iff] at h ⊢
    obtain ⟨x,hx,hsame⟩ := h
    exact ⟨x,List.mem_append_left _ hx,hsame⟩

/-- The note of the bound on all bytes, which has the number of values in it. -/
def totalNote (v : ValueScan) (path bound : String) : ScanNote :=
  ⟨"total_cap",path,bound,ValueScan.stillSearched v.values.size,operatorOnly⟩

lemma noteTotal_scan (r : Reading) (bound : String) :
    (r.noteTotal bound).scan = r.scan.noteOnce (totalNote r.scan r.sink.path bound) := rfl

lemma noteOnce_full (v : ValueScan) (n : ScanNote) :
    ({ v with full := true } : ValueScan).noteOnce n = { v.noteOnce n with full := true } := by
  unfold ValueScan.noteOnce
  have hnoted : ({ v with full := true } : ValueScan).noted n.kind n.file =
    v.noted n.kind n.file := rfl
  rw [hnoted]
  split_ifs <;> rfl

/-- Where a line adds nothing, the note may come before it or after. -/
lemma collect_noteTotal {lineNo : ℕ} {line : Bytes} {bound : String}
    (h : Unmoved v (v.collect limits path lineNo line)) :
    (v.noteOnce (totalNote v path bound)).collect limits path lineNo line
      = (v.collect limits path lineNo line).noteOnce
      (totalNote (v.collect limits path lineNo line) path bound) := by
  have hvalues : (v.noteOnce (totalNote v path bound)).values = v.values := by
    unfold ValueScan.noteOnce
    split_ifs <;> rfl
  have hset : ∀ value, (v.values.set value path).size = v.values.size →
      ({ v.noteOnce (totalNote v path bound) with values := v.values.set value path } : ValueScan)
        = ({ v with values := v.values.set value path } : ValueScan).noteOnce
          (totalNote { v with values := v.values.set value path } path bound) := by
    intro value hsize
    have hnote : totalNote { v with
      values := v.values.set value path } path bound = totalNote v path bound := by
      simp only [totalNote,hsize]
    rw [hnote]
    unfold ValueScan.noteOnce
    have hnoted : ({ v with values := v.values.set value path } : ValueScan).noted
      (totalNote v path bound).kind (totalNote v path bound).file
        = v.noted (totalNote v path bound).kind (totalNote v path bound).file := rfl
    rw [hnoted]
    split_ifs <;> rfl
  obtain ⟨hline,he⟩ | ⟨value,hline,⟨hknown,he⟩ | ⟨hnew,_,he⟩ | ⟨hnew,hfull,he⟩⟩ :=
    collect_cases limits v path lineNo line
  · rw [he]
    simp only [ValueScan.collect,hline]
  · rw [he,← hset value (size_set_known hknown)]
    simp only [ValueScan.collect,hline,hvalues]
    rw [if_neg]
    rintro ⟨hnone,_⟩
    rw [Option.isNone_iff_eq_none] at hnone
    rw [hnone] at hknown
    cases hknown
  · have hmoved := h.size
    rw [he,Table.size_set_of_none hnew] at hmoved
    omega
  · rw [he] at h
    have hnoted : v.noted "value_cap" path = true :=
      noted_of_unmoved (v := { v with full := true }) h.notes
    have hcalm : v.collect limits path lineNo line = { v with full := true } :=
      he.trans (if_pos hnoted)
    have hlater : (v.noteOnce (totalNote v path bound)).noted "value_cap" path = true :=
      noted_noteOnce (m := ⟨"value_cap",path,"","",""⟩) hnoted
    rw [hcalm]
    simp only [ValueScan.collect,hline,hvalues]
    rw [if_pos ⟨by rw [hnew]; rfl,hfull⟩]
    refine (if_pos hlater).trans ?_
    have hsame : totalNote { v with full := true } path bound = totalNote v path bound := rfl
    rw [hsame,noteOnce_full]
    simp only [hvalues]

/-- Where more of a file adds nothing, the note of the bound may come before it or after. -/
lemma extend_noteTotal {chunk : Bytes} {bound : String}
    (h : Unmoved r.scan (r.extend limits chunk).scan) :
    (r.noteTotal bound).extend limits chunk = (r.extend limits chunk).noteTotal bound := by
  by_cases hskip : r.sink.skipping = true
  · rw [extend_skip hskip,extend_skip (r := r.noteTotal bound) hskip]
  · by_cases hlong : limits.secretLineBytes < (r.sink.line ++ chunk).length
    · rw [extend_long hskip hlong] at h ⊢
      rw [extend_long (r := r.noteTotal bound) hskip hlong]
      have hnoted : r.scan.noted "line_cap" r.sink.path = true := noted_of_unmoved h.notes
      have hcalm : r.scan.noteBound "line_cap" r.sink.path (lineBound limits (r.sink.lineNo+1)) =
        r.scan := if_pos hnoted
      have hlater : (r.noteTotal bound).scan.noted "line_cap" r.sink.path = true :=
        noted_noteOnce (m := ⟨"line_cap",r.sink.path,"","",""⟩) hnoted
      rw [hcalm]
      exact congrArg (fun v => Reading.mk v _) (if_pos hlater)
    · rw [extend_short hskip hlong,extend_short (r := r.noteTotal bound) hskip hlong]
      rfl

lemma endLine_noteTotal {bound : String} (h : Unmoved r.scan (r.endLine limits).scan) :
    (r.noteTotal bound).endLine limits = (r.endLine limits).noteTotal bound := by
  by_cases hskip : r.sink.skipping = true
  · rw [Reading.endLine,Reading.endLine,if_pos hskip,
      if_pos (show (r.noteTotal bound).sink.skipping = true from hskip)]
    rfl
  · rw [Reading.endLine,if_neg hskip] at h
    rw [Reading.endLine,Reading.endLine,if_neg hskip,
      if_neg (show ¬ (r.noteTotal bound).sink.skipping = true from hskip)]
    exact congrArg (fun v => Reading.mk v _) (collect_noteTotal h)

lemma line_noteTotal {l : Bytes} {bound : String} (h : Unmoved r.scan (r.line limits l).scan) :
    (r.noteTotal bound).line limits l = (r.line limits l).noteTotal bound := by
  have hmore := more_extend limits r l
  have hend := (more_endLine limits (r.extend limits l)).scan
  rw [hmore.path] at hend
  obtain ⟨hfirst,hsecond⟩ := Unmoved.of_grown hmore.scan hend h
  rw [Reading.line,extend_noteTotal hfirst,endLine_noteTotal hsecond]
  rfl

lemma lines_noteTotal {lines : List Bytes} {bound : String}
    (h : Unmoved r.scan (lines.foldl (Reading.line limits) r).scan) :
    lines.foldl (Reading.line limits) (r.noteTotal bound) =
    (lines.foldl (Reading.line limits) r).noteTotal bound := by
  induction lines generalizing r with
  | nil => rfl
  | cons l lines ih =>
    have hmore := more_line limits r l
    have hrest := (more_lines limits (r.line limits l) lines).scan
    rw [hmore.path] at hrest
    obtain ⟨hfirst,hsecond⟩ := Unmoved.of_grown hmore.scan hrest h
    rw [List.foldl_cons,line_noteTotal hfirst,ih hsecond]
    rfl

/-- Where a part of a file adds nothing, the note of the bound may come before it or after. -/
lemma feedLines_noteTotal {p : Bytes} {bound : String}
    (h : Unmoved r.scan (r.feedLines limits p).scan) :
    (r.noteTotal bound).feedLines limits p = (r.feedLines limits p).noteTotal bound := by
  have hmore := more_lines limits r (cutLines p).1
  have hlast := (more_extend limits ((cutLines p).1.foldl (Reading.line limits) r)
    (cutLines p).2).scan
  rw [hmore.path] at hlast
  obtain ⟨hfirst,hsecond⟩ := Unmoved.of_grown hmore.scan hlast h
  rw [Reading.feedLines,lines_noteTotal hfirst,extend_noteTotal hsecond]
  rfl

end grown
end Manvi.DevCouncil
