import Manvi.Transport.Lines

/-! Reads of a body that make progress: what each passes on continues the lines of the stream. -/
namespace Manvi.Transport
open Manvi.Encoding

def stripBOM (b : Bytes) : Bytes := if utf8BOM.isPrefixOf b then b.drop utf8BOM.length else b

/-- A read that passes nothing on: no bytes, or only the LF of a CR LF that was cut. -/
def idle (skipLF : Bool) (r : Bytes) : Bool := r = [] || (skipLF && r = [lf])

/-- How far into its line some bytes leave a reader that was so far into one. -/
def column : ℕ → Bytes → ℕ
  | pos,[] => pos
  | pos,c :: rest => column (if c = lf then 0 else pos+1) rest

/-- The room that is left in the window of the buffer so far into a line. -/
def room (pos : ℕ) : ℕ := sseReaderSize-pos%sseReaderSize

lemma room_pos (pos : ℕ) : 0 < room pos := Nat.sub_pos_of_lt (Nat.mod_lt pos (by decide))

lemma takeRead_flatten (room : ℕ) (reads : List Bytes) :
    (takeRead room reads).1 ++ (takeRead room reads).2.flatten = reads.flatten := by
  cases reads with
  | nil => rfl
  | cons r rest =>
    rw [takeRead]
    split_ifs
    · rfl
    · rw [List.flatten_cons,List.flatten_cons,← List.append_assoc,List.take_append_drop]

lemma takeRead_length_le (room : ℕ) (reads : List Bytes) :
    (takeRead room reads).1.length ≤ room := by
  cases reads with
  | nil => exact Nat.zero_le _
  | cons r rest =>
    rw [takeRead]
    split_ifs with h
    · exact h
    · exact List.length_take_le _ _

/-- What is left to read: a read that is taken is one fewer, or leaves fewer bytes. -/
def leftToRead (reads : List Bytes) : ℕ := reads.length+reads.flatten.length

lemma leftToRead_takeRead {room : ℕ} {reads : List Bytes} (hroom : 0 < room) (h : reads ≠ []) :
    leftToRead (takeRead room reads).2 < leftToRead reads := by
  obtain ⟨r,rest,rfl⟩ := List.exists_cons_of_ne_nil h
  rw [takeRead]
  unfold leftToRead
  split_ifs with hfits
  · simp only [List.length_cons,List.flatten_cons,List.length_append]
    omega
  · simp only [List.length_cons,List.flatten_cons,List.length_append,List.length_drop]
    omega

/-- Fewer than a hundred idle reads in a row, counted on from some. A read longer than the room is
as many as it is taken in, and the last read is free when it comes with the end. -/
def steady (eofWithLast : Bool) (n pos : ℕ) (skipLF : Bool) (reads : List Bytes) : Bool :=
  if h : reads = [] then true
  else
    let t := takeRead (room pos) reads
    if t.2.isEmpty && eofWithLast then true
    else if idle skipLF t.1 then
      n+1 < maxEmptyReads && steady eofWithLast (n+1) pos (endLines skipLF t.1).2 t.2
    else steady eofWithLast 0 (column pos (endLines skipLF t.1).1) (endLines skipLF t.1).2 t.2
termination_by leftToRead reads
decreasing_by all_goals exact leftToRead_takeRead (room_pos pos) h

@[simp] lemma steady_nil (e : Bool) (n pos : ℕ) (skipLF : Bool) :
    steady e n pos skipLF [] = true := by
  rw [steady,dif_pos rfl]

lemma steady_some (e : Bool) (n pos : ℕ) (skipLF : Bool) {reads : List Bytes} (h : reads ≠ []) :
    steady e n pos skipLF reads =
      if (takeRead (room pos) reads).2.isEmpty && e then true
      else if idle skipLF (takeRead (room pos) reads).1 then
        n+1 < maxEmptyReads && steady e (n+1) pos (endLines skipLF (takeRead (room pos) reads).1).2
          (takeRead (room pos) reads).2
      else steady e 0 (column pos (endLines skipLF (takeRead (room pos) reads).1).1)
        (endLines skipLF (takeRead (room pos) reads).1).2 (takeRead (room pos) reads).2 := by
  rw [steady,dif_neg h]

/-- What has arrived is a proper beginning of the mark. -/
def inMark (p : Bytes) : Bool := p.length < utf8BOM.length && p = utf8BOM.take p.length

/-- The reads that follow once something has arrived that is not in the mark. -/
def afterMark (e : Bool) (n : ℕ) (q : Bytes) (reads : List Bytes) : Bool :=
  if q = utf8BOM then n+1 < maxEmptyReads && steady e (n+1) 0 false reads
  else steady e 0 (column 0 (endLines false (stripBOM q)).1) (endLines false (stripBOM q)).2 reads

/-- The same from the start of a stream: reads before the first byte count with those after a mark
that nothing follows, and reads inside the mark count by themselves. -/
def steadyStart (eofWithLast : Bool) : ℕ → ℕ → Bytes → List Bytes → Bool
  | _,_,_,[] => true
  | n,m,seen,r :: rest =>
    if sseReaderSize-seen.length < r.length then
      afterMark eofWithLast n (seen ++ r.take (sseReaderSize-seen.length))
        (r.drop (sseReaderSize-seen.length) :: rest)
    else if rest.isEmpty && eofWithLast then true
    else if r = [] then
      if seen = [] then n+1 < maxEmptyReads && steadyStart eofWithLast (n+1) 0 [] rest
      else m+1 < maxEmptyReads && steadyStart eofWithLast n (m+1) seen rest
    else if inMark (seen ++ r) then steadyStart eofWithLast n 0 (seen ++ r) rest
    else afterMark eofWithLast n (seen ++ r) rest

namespace PayloadReader

/-- The bytes that a reader has still to pass on, with their line endings as they came. -/
def remaining (r : PayloadReader) : Bytes :=
  if r.bomDecided then dropLF r.skipLF r.src.reads.flatten else stripBOM r.src.reads.flatten

/-- A reader whose reads make progress, after so many idle ones and so far into a line. -/
def Steady (n pos : ℕ) (r : PayloadReader) : Prop :=
  if r.bomDecided then steady r.src.eofWithLast n pos r.skipLF r.src.reads = true
  else pos = 0 ∧ r.skipLF = false ∧ steadyStart r.src.eofWithLast n 0 [] r.src.reads = true

end PayloadReader

@[simp] lemma scanCR_length (p : Bytes) : (scanCR p).1.length = p.length := by
  induction p using scanCR.induct with
  | case1 => rfl
  | case2 => rfl
  | case3 rest' ih =>
    rw [scanCR,if_pos rfl]
    simp [ih]
  | case4 d rest' hd ih =>
    rw [scanCR,if_pos rfl]
    simp [hd,ih]
  | case5 c rest' hc ih =>
    rw [scanCR.eq_def]
    simp [hc,ih]

lemma endLines_length_le (skip : Bool) (p : Bytes) : (endLines skip p).1.length ≤ p.length := by
  unfold endLines
  split_ifs
  · simp
  · rw [scanCR_length,List.length_tail]
    omega
  · rw [scanCR_length]

lemma endLines_eq_nil_iff (skip : Bool) (r : Bytes) :
    (endLines skip r).1 = [] ↔ idle skip r = true := by
  have hnil : ∀ p : Bytes, (scanCR p).1 = [] ↔ p = [] := by
    intro p
    rw [← List.length_eq_zero_iff,scanCR_length,List.length_eq_zero_iff]
  unfold endLines idle
  cases r with
  | nil => simp
  | cons c r =>
    simp only [reduceCtorEq,if_false,decide_false,Bool.false_or,Bool.and_eq_true,decide_eq_true_eq,
      List.head?_cons,Option.some.injEq,List.tail_cons,List.cons.injEq]
    split_ifs with h
    · rw [hnil]
      simp [h]
    · rw [hnil]
      simp only [reduceCtorEq,false_iff,not_and]
      intro hs hc
      exact (h ⟨hs,hc⟩).elim

@[simp] lemma column_append (pos : ℕ) (a b : Bytes) :
    column pos (a ++ b) = column (column pos a) b := by
  induction a generalizing pos with
  | nil => rfl
  | cons c a ih => exact ih _

/-- Without an LF bytes are all in the line. -/
lemma column_of_not_mem {b : Bytes} (h : lf ∉ b) (pos : ℕ) : column pos b = pos+b.length := by
  induction b generalizing pos with
  | nil => rfl
  | cons c b ih =>
    simp only [List.mem_cons,not_or] at h
    rw [column,if_neg (Ne.symm h.1),ih h.2,List.length_cons]
    omega

/-- After an LF it does not matter what was before. -/
lemma column_lf (pos : ℕ) (l rest : Bytes) : column pos (l ++ lf :: rest) = column 0 rest := by
  rw [column_append,column,if_pos rfl]

/-- What a read gives: clean bytes that continue the stream's lines and fit the room, and the end
only when nothing is left. -/
structure Passes (r : PayloadReader) (n pos : ℕ) (bytes : Bytes) (err : Option ReadError)
    (r' : PayloadReader) :
    Prop where
  clean : Clean bytes
  same : ∀ cur, Same (cutLines cur (bytes ++ r'.remaining)) (cutLines cur r.remaining)
  ending : err = none ∨ (err = some .eof ∧ r'.src.reads = [])
  waits : err = none → bytes = [] → r'.Steady (n+1) pos ∧ n+1 < maxEmptyReads
  steady : err = none → bytes ≠ [] → r'.Steady 0 (column pos bytes)
  settled : r'.src.reads = [] → r'.Steady 0 (column pos bytes)
  fits : bytes.length ≤ room pos
  bound : bytes.length+r'.src.reads.flatten.length ≤ r.src.reads.flatten.length

lemma remaining_of_nil {r : PayloadReader} (h : r.src.reads = []) : r.remaining = [] := by
  unfold PayloadReader.remaining
  rw [h]
  split_ifs
  · exact dropLF_nil _
  · rfl

/-- A reader with nothing left gives the end. -/
lemma readOnce_nil {r : PayloadReader} {n pos : ℕ} (h : r.src.reads = []) (hs : r.Steady n pos) :
    Passes r n pos (r.readOnce (room pos)).1 (r.readOnce (room pos)).2.1
    (r.readOnce (room pos)).2.2 := by
  obtain ⟨⟨reads,e⟩,decided,skip⟩ := r
  obtain rfl : reads = [] := h
  have honce : (⟨⟨[],e⟩,decided,skip⟩ : PayloadReader).readOnce (room pos) =
      ([],some .eof,⟨⟨[],e⟩,decided,skip⟩) := by
    simp [PayloadReader.readOnce,Source.read,endLines]
  rw [honce]
  refine ⟨trivial,fun cur => Same.refl _,.inr ⟨rfl,rfl⟩,?_,?_,?_,Nat.zero_le _,Nat.zero_le _⟩
  · intro hnone
    cases hnone
  · intro hnone
    cases hnone
  · intro _
    cases decided with
    | true => exact steady_nil e 0 _ skip
    | false => exact ⟨hs.1,hs.2.1,rfl⟩

/-- The error of a read that is not the last. -/
lemma last_or {e : Bool} {rest : List Bytes} {err : Option ReadError}
    (h : err = if rest.isEmpty && e then some .eof else none) :
    (err = none ∨ (err = some .eof ∧ rest = [])) ∧ (err = none → ¬ (rest.isEmpty && e) = true) := by
  by_cases hlast : (rest.isEmpty && e) = true
  · rw [if_pos hlast] at h
    rw [Bool.and_eq_true,List.isEmpty_iff] at hlast
    refine ⟨.inr ⟨h,hlast.1⟩,fun hnone => ?_⟩
    rw [h] at hnone
    cases hnone
  · rw [if_neg hlast] at h
    exact ⟨.inl h,fun _ => hlast⟩

/-- A read once the mark is decided. -/
lemma readOnce_decided {r : PayloadReader} {n pos : ℕ} (hd : r.bomDecided = true)
    (hs : r.Steady n pos) :
    Passes r n pos (r.readOnce (room pos)).1 (r.readOnce (room pos)).2.1
    (r.readOnce (room pos)).2.2 := by
  by_cases hnil : r.src.reads = []
  · exact readOnce_nil hnil hs
  obtain ⟨⟨reads,e⟩,bomDecided,skip⟩ := r
  obtain rfl : bomDecided = true := hd
  dsimp only at hnil
  obtain ⟨c,rest,htake⟩ : ∃ c rest, takeRead (room pos) reads = (c,rest) := ⟨_,_,rfl⟩
  have hflat := takeRead_flatten (room pos) reads
  have hfits := takeRead_length_le (room pos) reads
  rw [htake] at hflat hfits
  dsimp only at hflat hfits
  have honce : (⟨⟨reads,e⟩,true,skip⟩ : PayloadReader).readOnce (room pos) =
      ((endLines skip c).1,(if rest.isEmpty && e then some .eof else none),
        ⟨⟨rest,e⟩,true,(endLines skip c).2⟩) := by
    simp [PayloadReader.readOnce,Source.read,hnil,htake]
  rw [honce]
  obtain ⟨hending,hmore⟩ := @last_or e rest _ rfl
  simp only [PayloadReader.Steady,if_true,steady_some e n pos skip hnil,htake] at hs
  have hle := endLines_length_le skip c
  refine ⟨clean_endLines _ _,?_,hending,?_,?_,?_,hle.trans hfits,?_⟩
  · intro cur
    have hsame := same_endLines skip c cur rest.flatten
    rw [hflat] at hsame
    exact hsame
  · intro hnone hempty
    have hidle := (endLines_eq_nil_iff skip c).mp hempty
    rw [if_neg (hmore hnone),if_pos hidle,Bool.and_eq_true,decide_eq_true_eq] at hs
    exact ⟨hs.2,hs.1⟩
  · intro hnone hempty
    have hidle : ¬ idle skip c = true := fun h => hempty ((endLines_eq_nil_iff skip c).mpr h)
    rw [if_neg (hmore hnone),if_neg hidle] at hs
    exact hs
  · intro hend
    obtain rfl : rest = [] := hend
    exact steady_nil e 0 _ _
  · have hlen := congrArg List.length hflat
    rw [List.length_append] at hlen
    dsimp only
    omega

lemma stripBOM_append {q : Bytes} (h : inMark q = false) (rest : Bytes) :
    stripBOM (q ++ rest) = stripBOM q ++ rest := by
  unfold stripBOM
  by_cases hq : utf8BOM.isPrefixOf q = true
  · have hlong : utf8BOM.isPrefixOf (q ++ rest) = true := by
      rw [List.isPrefixOf_iff_prefix] at hq ⊢
      exact hq.trans (List.prefix_append _ _)
    rw [if_pos hq,if_pos hlong,List.drop_append_of_le_length]
    exact (List.isPrefixOf_iff_prefix.mp hq).length_le
  · rw [if_neg hq,if_neg]
    intro hlong
    rw [List.isPrefixOf_iff_prefix] at hq hlong
    have hpre : q <+: q ++ rest := List.prefix_append _ _
    by_cases hlen : utf8BOM.length ≤ q.length
    · exact hq (List.prefix_of_prefix_length_le hlong hpre hlen)
    · have hshort := List.prefix_of_prefix_length_le hpre hlong (by omega)
      have hin : inMark q = true := by
        rw [inMark,Bool.and_eq_true,decide_eq_true_eq,decide_eq_true_eq]
        exact ⟨by omega,List.prefix_iff_eq_take.mp hshort⟩
      rw [hin] at h
      cases h

section mark
variable {e : Bool} {n : ℕ}

lemma inMark_long {q : Bytes} (h : utf8BOM.length ≤ q.length) : inMark q = false := by
  rw [inMark,Bool.and_eq_false_iff]
  left
  rw [decide_eq_false_iff_not]
  omega

/-- What is gathered for the mark: the bytes as they come, until they are decided or at their
end. -/
structure Gathers (e : Bool) (n : ℕ) (p : Bytes) (reads : List Bytes)
    (g : Bytes × Option ReadError × List Bytes) : Prop where
  bytes : g.1 ++ g.2.2.flatten = p ++ reads.flatten
  ending : g.2.1 = none ∨ (g.2.1 = some .eof ∧ g.2.2 = [])
  decided : g.2.1 = none → inMark g.1 = false ∧ afterMark e n g.1 g.2.2 = true
  fits : g.1.length ≤ sseReaderSize
  some : g.1 ≠ []

lemma gatherBOM_gathers {reads : List Bytes} {m : ℕ} {p : Bytes} {err : Option ReadError}
    (hp : p ≠ [])
    (hfits : p.length ≤ sseReaderSize) (herr : err = none ∨ (err = some .eof ∧ reads = []))
    (hs : err = none → (if inMark p then steadyStart e n m p reads else afterMark e n p reads) =
      true) :
    Gathers e n p reads (gatherBOM sseReaderSize e reads m p err) := by
  induction reads generalizing m p err with
  | nil =>
    rw [gatherBOM]
    split_ifs with hc
    · exact ⟨rfl,.inr ⟨rfl,rfl⟩,(fun h => by cases h),hfits,hp⟩
    · refine ⟨rfl,herr.imp_right (fun h => ⟨h.1,rfl⟩),?_,hfits,hp⟩
      intro hnone
      have hin : inMark p = false := by
        rw [Bool.eq_false_iff,ne_eq,inMark,Bool.and_eq_true,decide_eq_true_eq,decide_eq_true_eq]
        rintro ⟨h1,h2⟩
        exact hc ⟨h1,hnone,h2⟩
      have := hs hnone
      rw [hin] at this
      exact ⟨hin,this⟩
  | cons r rest ih =>
    have herr : err = none := herr.elim id (fun h => by cases h.2)
    have hs := hs herr
    rw [gatherBOM]
    by_cases hin : inMark p = true
    · have hc := hin
      rw [inMark,Bool.and_eq_true,decide_eq_true_eq,decide_eq_true_eq] at hc
      rw [if_pos ⟨hc.1,herr,hc.2⟩]
      rw [if_pos hin,steadyStart] at hs
      by_cases hover : sseReaderSize-p.length < r.length
      · rw [if_pos hover] at hs ⊢
        have hlen : (p ++ r.take (sseReaderSize-p.length)).length = sseReaderSize := by
          rw [List.length_append,List.length_take_of_le hover.le]
          omega
        refine ⟨?_,.inl rfl,fun _ => ⟨?_,hs⟩,hlen.le,by simp [hp]⟩
        · rw [List.flatten_cons,List.flatten_cons,List.append_assoc,← List.append_assoc (r.take _),
            List.take_append_drop]
        · apply inMark_long
          rw [hlen]
          decide
      rw [if_neg hover] at hs ⊢
      have hgrown : (p ++ r).length ≤ sseReaderSize := by
        rw [List.length_append]
        omega
      by_cases hlast : (rest.isEmpty && e) = true
      · have hrest : rest = [] := by
          rw [Bool.and_eq_true,List.isEmpty_iff] at hlast
          exact hlast.1
        subst hrest
        rw [if_pos hlast]
        by_cases hr : r = []
        · rw [if_neg (not_not.mpr hr),if_pos (by simp)]
          exact ⟨by simp [hr],.inr ⟨rfl,rfl⟩,(fun h => by cases h),hfits,hp⟩
        · rw [if_pos hr]
          have hg : Gathers e n (p ++ r) [] (gatherBOM sseReaderSize e [] 0 (p ++ r) (some .eof)) :=
            ih (by simp [hp]) hgrown (.inr ⟨rfl,rfl⟩) (fun h => by cases h)
          exact ⟨by rw [hg.bytes]; simp,hg.ending,hg.decided,hg.fits,hg.some⟩
      · rw [if_neg hlast] at hs ⊢
        by_cases hr : r = []
        · rw [if_pos hr,if_neg hp,Bool.and_eq_true,decide_eq_true_eq] at hs
          rw [if_neg (not_not.mpr hr),if_neg (by simp),if_neg (by omega)]
          have hg : Gathers e n p rest (gatherBOM sseReaderSize e rest (m+1) p none) :=
            ih hp hfits (.inl rfl) (fun _ => by rw [if_pos hin]; exact hs.2)
          exact ⟨by rw [hg.bytes,hr]; simp,hg.ending,hg.decided,hg.fits,hg.some⟩
        · rw [if_neg hr] at hs
          rw [if_pos hr]
          have hg : Gathers e n (p ++ r) rest (gatherBOM sseReaderSize e rest 0 (p ++ r) none) :=
            ih (by simp [hp]) hgrown (.inl rfl) (fun _ => hs)
          exact ⟨by rw [hg.bytes]; simp,hg.ending,hg.decided,hg.fits,hg.some⟩
    · have hc : ¬ (p.length < utf8BOM.length ∧ err = none ∧ p = utf8BOM.take p.length) := by
        rintro ⟨h1,_,h2⟩
        apply hin
        rw [inMark,Bool.and_eq_true,decide_eq_true_eq,decide_eq_true_eq]
        exact ⟨h1,h2⟩
      rw [if_neg hc]
      rw [if_neg hin] at hs
      exact ⟨rfl,.inl herr,fun _ => ⟨by simpa using hin,hs⟩,hfits,hp⟩

end mark

lemma stripBOM_eq_nil_iff {q : Bytes} (hq : q ≠ []) : stripBOM q = [] ↔ q = utf8BOM := by
  unfold stripBOM
  split_ifs with h
  · rw [List.isPrefixOf_iff_prefix] at h
    obtain ⟨tail,rfl⟩ := h
    simp
  · constructor
    · intro he
      exact (hq he).elim
    · rintro rfl
      simp at h

lemma stripBOM_length_le (q : Bytes) : (stripBOM q).length ≤ q.length := by
  unfold stripBOM
  split_ifs
  · simp
  · exact le_rfl

/-- The first bytes of a stream, once they are gathered for the mark. -/
lemma passes_gathered {e : Bool} {n : ℕ} {c : Bytes} {reads rest : List Bytes}
    {g : Bytes × Option ReadError × List Bytes} (hg : Gathers e n c rest g)
    (hflat : c ++ rest.flatten = reads.flatten) :
    Passes ⟨⟨reads,e⟩,false,false⟩ n 0 (endLines false (stripBOM g.1)).1 g.2.1
      ⟨⟨g.2.2,e⟩,true,(endLines false (stripBOM g.1)).2⟩ := by
  have hstrip : stripBOM (g.1 ++ g.2.2.flatten) = stripBOM g.1 ++ g.2.2.flatten := by
    rcases hg.ending with hnone | ⟨_,hnil⟩
    · exact stripBOM_append (hg.decided hnone).1 _
    · rw [hnil,List.flatten_nil,List.append_nil,List.append_nil]
  have hstart : (⟨⟨reads,e⟩,false,false⟩ : PayloadReader).remaining = stripBOM g.1 ++
    g.2.2.flatten := by
    rw [← hstrip,hg.bytes,hflat]
    rfl
  have hle := (endLines_length_le false (stripBOM g.1)).trans (stripBOM_length_le g.1)
  refine ⟨clean_endLines _ _,?_,hg.ending,?_,?_,?_,hle.trans hg.fits,?_⟩
  · intro cur
    have hsame := same_endLines false (stripBOM g.1) cur g.2.2.flatten
    rw [hstart]
    exact hsame
  · intro hnone hnil
    have hmark : g.1 = utf8BOM := by
      rw [endLines_eq_nil_iff] at hnil
      have : stripBOM g.1 = [] := by simpa [idle] using hnil
      exact (stripBOM_eq_nil_iff hg.some).mp this
    have hafter := (hg.decided hnone).2
    rw [afterMark,if_pos hmark,Bool.and_eq_true,decide_eq_true_eq] at hafter
    have hflag : (endLines false (stripBOM g.1)).2 = false := by
      rw [hmark]
      rfl
    rw [hflag]
    exact ⟨hafter.2,hafter.1⟩
  · intro hnone hne
    have hmark : g.1 ≠ utf8BOM := by
      intro hmark
      apply hne
      rw [hmark]
      rfl
    have hafter := (hg.decided hnone).2
    rw [afterMark,if_neg hmark] at hafter
    exact hafter
  · intro hend
    have hnil : g.2.2 = [] := hend
    rw [hnil]
    exact steady_nil e 0 _ _
  · have hbytes := congrArg List.length (hg.bytes.trans hflat)
    rw [List.length_append] at hbytes
    dsimp only
    omega

/-- A read at the start of the stream. -/
lemma readOnce_start {r : PayloadReader} {n pos : ℕ} (hd : r.bomDecided = false)
    (hs : r.Steady n pos) :
    Passes r n pos (r.readOnce (room pos)).1 (r.readOnce (room pos)).2.1
    (r.readOnce (room pos)).2.2 := by
  by_cases hnil : r.src.reads = []
  · exact readOnce_nil hnil hs
  obtain ⟨⟨reads,e⟩,bomDecided,skip⟩ := r
  obtain rfl : bomDecided = false := hd
  obtain ⟨rfl,rfl,hs⟩ : pos = 0 ∧ skip = false ∧ steadyStart e n 0 [] reads = true := hs
  obtain ⟨r,rest,rfl⟩ := List.exists_cons_of_ne_nil hnil
  have hroom : room 0 = sseReaderSize := rfl
  rw [steadyStart,List.length_nil,Nat.sub_zero] at hs
  simp only [List.nil_append] at hs
  -- what the mark is gathered from, and what is left of the reads
  have hgathers : ∀ c rest', takeRead sseReaderSize (r :: rest) = (c,rest') → c ≠ [] →
      ((if rest'.isEmpty && e then some ReadError.eof else none) = none →
        (if inMark c then steadyStart e n 0 c rest' else afterMark e n c rest') = true) →
      Passes ⟨⟨r :: rest,e⟩,false,false⟩ n 0
        ((⟨⟨r :: rest,e⟩,false,false⟩ : PayloadReader).readOnce (room 0)).1
        ((⟨⟨r :: rest,e⟩,false,false⟩ : PayloadReader).readOnce (room 0)).2.1
        ((⟨⟨r :: rest,e⟩,false,false⟩ : PayloadReader).readOnce (room 0)).2.2 := by
    intro c rest' htake hc hsteady
    have hflat := takeRead_flatten sseReaderSize (r :: rest)
    have hfits := takeRead_length_le sseReaderSize (r :: rest)
    rw [htake] at hflat hfits
    have hg := gatherBOM_gathers hc hfits (@last_or e rest' _ rfl).1 hsteady
    have honce : (⟨⟨r :: rest,e⟩,false,false⟩ : PayloadReader).readOnce (room 0) =
        ((endLines false (stripBOM (gatherBOM sseReaderSize e rest' 0 c
            (if rest'.isEmpty && e then some .eof else none)).1)).1,
          (gatherBOM sseReaderSize e rest' 0 c (if rest'.isEmpty && e then
            some .eof else none)).2.1,
          ⟨⟨(gatherBOM sseReaderSize e rest' 0 c (if rest'.isEmpty && e then
            some .eof else none)).2.2,e⟩,true,
            (endLines false (stripBOM (gatherBOM sseReaderSize e rest' 0 c
              (if rest'.isEmpty && e then some .eof else none)).1)).2⟩) := by
      have hmark : ¬ sseReaderSize < utf8BOM.length := by decide
      simp [PayloadReader.readOnce,Source.read,hroom,htake,hc,PayloadReader.dropBOM,hmark,stripBOM]
    rw [honce]
    exact passes_gathered hg hflat
  by_cases hover : sseReaderSize < r.length
  · rw [if_pos hover] at hs
    have htake : takeRead sseReaderSize (r :: rest) = (r.take sseReaderSize,
      r.drop sseReaderSize :: rest) :=
      if_neg (by omega)
    have hlen : (r.take sseReaderSize).length = sseReaderSize := List.length_take_of_le hover.le
    have hin : inMark (r.take sseReaderSize) = false := by
      apply inMark_long
      rw [hlen]
      decide
    refine hgathers _ _ htake ?_ ?_
    · apply List.ne_nil_of_length_pos
      rw [hlen]
      decide
    · intro _
      rw [hin]
      exact hs
  · rw [if_neg hover] at hs
    have htake : takeRead sseReaderSize (r :: rest) = (r,rest) := if_pos (by omega)
    obtain ⟨hending,hmore⟩ := @last_or e rest _ rfl
    by_cases hr : r = []
    · subst hr
      have honce : (⟨⟨[] :: rest,e⟩,false,false⟩ : PayloadReader).readOnce (room 0) =
          ([],(if rest.isEmpty && e then some .eof else none),⟨⟨rest,e⟩,false,false⟩) := by
        simp [PayloadReader.readOnce,Source.read,hroom,htake,endLines]
      rw [honce]
      refine ⟨trivial,fun cur => Same.refl _,hending,?_,fun _ h => (h rfl).elim,?_,Nat.zero_le _,
        by simp⟩
      · intro hnone _
        rw [if_neg (hmore hnone),if_pos rfl,if_pos trivial,Bool.and_eq_true,decide_eq_true_eq] at hs
        exact ⟨⟨rfl,rfl,hs.2⟩,hs.1⟩
      · intro hend
        obtain rfl : rest = [] := hend
        exact ⟨rfl,rfl,rfl⟩
    · refine hgathers r rest htake hr ?_
      intro hnone
      rw [if_neg (hmore hnone),if_neg hr] at hs
      exact hs

lemma readOnce_passes {r : PayloadReader} {n pos : ℕ} (hs : r.Steady n pos) :
    Passes r n pos (r.readOnce (room pos)).1 (r.readOnce (room pos)).2.1
    (r.readOnce (room pos)).2.2 := by
  cases hd : r.bomDecided with
  | true => exact readOnce_decided hd hs
  | false => exact readOnce_start hd hs

/-- What a whole read gives: it passes something on, or the stream has ended. -/
structure Arrives (r : PayloadReader) (pos : ℕ)
    (a : Bytes × Option ReadError × PayloadReader) : Prop where
  clean : Clean a.1
  same : ∀ cur, Same (cutLines cur (a.1 ++ a.2.2.remaining)) (cutLines cur r.remaining)
  ending : (a.2.1 = none ∧ a.1 ≠ []) ∨ (a.2.1 = some .eof ∧ a.2.2.src.reads = [])
  steady : a.2.2.Steady 0 (column pos a.1)
  fits : a.1.length ≤ room pos
  bound : a.1.length+a.2.2.src.reads.flatten.length ≤ r.src.reads.flatten.length

lemma tryRead_arrives {tries n pos : ℕ} {r : PayloadReader} (hs : r.Steady n pos) (ht : 0 < tries)
    (hn : maxEmptyReads ≤ n+tries) : Arrives r pos (PayloadReader.tryRead (room pos) tries r) := by
  induction tries generalizing n r with
  | zero => omega
  | succ tries ih =>
    have hp := readOnce_passes hs
    rw [PayloadReader.tryRead]
    by_cases hstop : (r.readOnce (room pos)).1 ≠ [] ∨ (r.readOnce (room pos)).2.1 ≠ none
    · rw [if_pos hstop]
      rcases hp.ending with hnone | hend
      · have hne : (r.readOnce (room pos)).1 ≠ [] := hstop.elim id (fun h => (h hnone).elim)
        exact ⟨hp.clean,hp.same,.inl ⟨hnone,hne⟩,hp.steady hnone hne,hp.fits,hp.bound⟩
      · exact ⟨hp.clean,hp.same,.inr hend,hp.settled hend.2,hp.fits,hp.bound⟩
    · rw [if_neg hstop]
      simp only [not_or,ne_eq,not_not] at hstop
      obtain ⟨hsteady,hless⟩ := hp.waits hstop.2 hstop.1
      have ha := ih hsteady (by omega) (by omega)
      refine ⟨ha.clean,?_,ha.ending,ha.steady,ha.fits,?_⟩
      · intro cur
        have hsame := hp.same cur
        rw [hstop.1,List.nil_append] at hsame
        exact (ha.same cur).trans hsame
      · have hb := hp.bound
        have hb' := ha.bound
        omega

lemma read_arrives {r : PayloadReader} {pos : ℕ} (hs : r.Steady 0 pos) :
    Arrives r pos (r.read (room pos)) := by
  rw [PayloadReader.read,if_neg (room_pos pos).ne']
  exact tryRead_arrives hs (by decide) (by decide)

end Manvi.Transport
