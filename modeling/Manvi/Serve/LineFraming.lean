import Manvi.Encoding.Bufio
import Manvi.Serve.Server

/-! The lines that a host is read by: how they are put together from a buffered reader, and what is
refused. -/
namespace Manvi.Serve
open Manvi.Encoding

inductive LineErr where
  | read (e : ReadErr)
  | lineTooLarge (max : ℤ) (head : List UInt8)
  deriving Repr, DecidableEq

/-- Keep the beginning of a line. -/
def keepHead (head chunk : List UInt8) : List UInt8 :=
  if head.length < idHeadBytes then head ++ chunk.take (idHeadBytes-head.length) else head

/-- Read past a delimiter, in so many slices. -/
def discardTo (delim : UInt8) : ℕ → Bufio → Option ReadErr × Bufio
  | 0,r => (some .bufferFull,r)
  | n+1,r => match r.readSlice delim with
    | (_,some .bufferFull,r) => discardTo delim n r
    | (_,err,r) => (err,r)

/-- Read on from what has been read of a line, in so many slices. A chunk is a place of the reader's
buffer: the head of a line that is refused is taken from it after the rest of the line was read over
it. -/
def readLineFrom (max : ℤ) : ℕ → List UInt8 → List UInt8 → Bufio →
    (List UInt8 × List UInt8 × Option LineErr) × Bufio
  | 0,_,head,r => (([],head,some (.read .bufferFull)),r)
  | n+1,buf,head,r => match r.readSlice 10 with
    | (chunk,err,r) =>
      if max < buf.length+(r.view chunk).length then
        let r := if err = some .bufferFull then (discardTo 10 (r.rest.length+1) r).2 else r
        let head := keepHead head (r.view chunk)
        (([],head,some (.lineTooLarge max head)),r)
      else match err with
        | none => ((trimNewline (buf ++ r.view chunk),keepHead head (r.view chunk),none),r)
        | some .bufferFull => readLineFrom max n (buf ++
          r.view chunk) (keepHead head (r.view chunk)) r
        | some err =>
          if err = .eof ∧ buf ++ r.view chunk ≠ [] then
            ((trimNewline (buf ++ r.view chunk),keepHead head (r.view chunk),none),r)
          else (([],keepHead head (r.view chunk),some (.read err)),r)

/-- One line without its end, what is kept of its beginning, and the error. A slice is a byte at
least, or the last. -/
def readLine (r : Bufio) (max : ℤ) : (List UInt8 × List UInt8 × Option LineErr) × Bufio :=
  readLineFrom max (r.rest.length+1) [] [] r

/-- The size of the buffer through which a host is read. -/
def hostBufferBytes : ℕ := 65536

/-- The reader of a host. -/
def hostReader (src : ByteSource) : Bufio := Bufio.new hostBufferBytes src

/-- A reader after some calls. -/
def afterCalls (max : ℤ) : ℕ → Bufio → Bufio
  | 0,r => r
  | n+1,r => afterCalls max n (readLine r max).2

/-- The line and the error of a call, counted from none. -/
def callAt (r : Bufio) (max : ℤ) (n : ℕ) : List UInt8 × Option LineErr :=
  let res := (readLine (afterCalls max n r) max).1
  (res.1,res.2.2)

/-- The lines of a stream as they stand in it, with the LF that ends them. -/
def streamLines : List UInt8 → List (List UInt8)
  | [] => []
  | c :: rest =>
    if c = 10 then [c] :: streamLines rest
    else match streamLines rest with
      | [] => [[c]]
      | line :: lines => (c :: line) :: lines

/-- A line without its LF and one CR before that; one without an LF is as it stands. -/
def lineText (raw : List UInt8) : List UInt8 :=
  if raw.getLast? = some 10 then trimNewline raw else raw

/-- What a call should give for a line. -/
def exactRead (max : ℤ) (raw : List UInt8) : List UInt8 × Option LineErr :=
  if max < (lineText raw).length then
    ([],some (.lineTooLarge max ((lineText raw).take idHeadBytes)))
  else (lineText raw,none)

/-- What calls should give: the lines in order, and then the end. -/
def exactCall (stream : List UInt8) (max : ℤ) (n : ℕ) : List UInt8 × Option LineErr :=
  match (streamLines stream)[n]? with
  | some raw => exactRead max raw
  | none => ([],some (.read .eof))

/-- What lies in the buffer when a line that begins a stream has been drained, of which so much had
arrived by then: the line's last bufferful and what came with it, over the bufferful before. -/
def drained (size : ℕ) (stream : List UInt8) (len here : ℕ) : List UInt8 :=
  overwrite ((stream.drop (size*((len-1)/size)-size)).take size) 0
    ((stream.drop (size*((len-1)/size))).take (min size (here-size*((len-1)/size))))

/-- What is kept of a line at a place of a stream: its beginning, unless it is refused in its first
bufferful and drained. -/
def keptHead (src : ByteSource) (max : ℤ) (start : ℕ) (raw : List UInt8) : List UInt8 :=
  if hostBufferBytes < raw.length ∧ max < hostBufferBytes then
    (drained hostBufferBytes (src.reads.flatten.drop start) raw.length
      (arrived src.reads (start+raw.length)-start)).take idHeadBytes
  else raw.take idHeadBytes

/-- What a call gives for a line, its end counted. -/
def countedRead (max : ℤ) (head raw : List UInt8) : List UInt8 × Option LineErr :=
  if max < raw.length then ([],some (.lineTooLarge max head)) else (trimNewline raw,none)

section counted
variable {max : ℤ} {head raw : List UInt8}

lemma countedRead_large (h : max < raw.length) :
    countedRead max head raw = ([],some (.lineTooLarge max head)) :=
  if_pos h

lemma countedRead_fits (h : ¬ max < raw.length) :
    countedRead max head raw = (trimNewline raw,none) := if_neg h

end counted

section reading
variable {src : ByteSource} {start : ℕ} {r : Bufio} {max : ℤ}

lemma keepHead_take (buf chunk : List UInt8) :
    keepHead (buf.take idHeadBytes) chunk = (buf ++ chunk).take idHeadBytes := by
  rw [keepHead,List.take_append,List.length_take]
  split_ifs with h
  · rw [Nat.min_eq_right (by omega)]
  · rw [Nat.sub_eq_zero_of_le (by omega),List.take_zero,List.append_nil]

/-- The reader of a host at a place of its stream. -/
structure Placed (src : ByteSource) (start : ℕ) (r : Bufio) : Prop where
  sound : r.Sound
  size : r.size = hostBufferBytes
  rest : r.rest = src.reads.flatten.drop start
  after : After (start+r.held.length) src.reads r.src.reads

lemma placed_hostReader (h : Bufio.steady 0 src.reads) : Placed src 0 (hostReader src) where
  sound := Bufio.sound_new _ h
  size := rfl
  rest := rfl
  after := After.refl _

lemma exists_readSlice (hr : r.Sound) :
    ∃ chunk err r', r.readSlice 10 = (chunk,err,r') ∧ r.Slices 10 chunk err r' :=
  ⟨_,_,_,rfl,Bufio.slices_readSlice hr 10⟩

/-- A slice takes the reader on by its length. -/
lemma Placed.slices {chunk : ℕ × ℕ} {err : Option ReadErr} {r' : Bufio} (hr : Placed src start r)
    (h : r.Slices 10 chunk err r') : Placed src (start+(r'.view chunk).length) r' := by
  have hsplit : r.rest = r'.view chunk ++ r'.rest := by
    cases h.gives with
    | line line_eq rest ends => rw [line_eq,rest,firstLine_append_otherLines]
    | eof line_eq rest endless => rw [line_eq,rest,List.append_nil]
    | full endless length rest none_held => exact rest
  refine ⟨h.sound,h.size.trans hr.size,?_,?_⟩
  · rw [← List.drop_drop,← hr.rest,hsplit,List.drop_left]
  · have hle := h.starts.length_le
    have hafter := hr.after.trans h.after
    rw [List.length_append] at hle hafter
    rwa [show start+r.held.length+((r'.view chunk).length+r'.held.length-r.held.length) =
      start+(r'.view chunk).length+r'.held.length by omega] at hafter

section drained
variable {size len here : ℕ} {chunk chunk' tail : List UInt8}

lemma drained_short (h : len ≤ size) (stream : List UInt8) (here : ℕ) :
    drained size stream len here = stream.take size := by
  have hquot : (len-1)/size = 0 := by
    obtain rfl | hpos := Nat.eq_zero_or_pos size
    · exact Nat.div_zero _
    · exact Nat.div_eq_of_lt (by omega)
  rw [drained,hquot,Nat.mul_zero,Nat.zero_sub,List.drop_zero]
  apply overwrite_of_begins
  exact List.take_prefix_take_left (Nat.min_le_left _ _)

lemma drained_last (hchunk : chunk.length = size) (hlen : size < len) (hle : len ≤ 2*size) :
    drained size (chunk ++ tail) len here = overwrite chunk 0
    (tail.take (min size (here-size))) := by
  have hquot : (len-1)/size = 1 := Nat.div_eq_of_lt_le (by omega) (by omega)
  rw [drained,hquot,Nat.mul_one,Nat.sub_self,List.drop_zero,← hchunk,List.take_left,List.drop_left]

/-- A bufferful that is drained leaves nothing of the one before it. -/
lemma drained_step (hchunk : chunk.length = size) (hlen : size < len) (stream : List UInt8) :
    drained size (chunk ++ stream) (size+len) (size+here) = drained size stream len here := by
  obtain rfl | hpos := Nat.eq_zero_or_pos size
  · simp [drained]
  have hquot : (size+len-1)/size = (len-1)/size+1 := by
    rw [show size+len-1 = len-1+size by omega,Nat.add_div_right _ hpos]
  have hone : 1 ≤ (len-1)/size := (Nat.one_le_div_iff hpos).mpr (by omega)
  have hbase : size ≤ size*((len-1)/size) := Nat.le_mul_of_pos_right size hone
  rw [drained,drained,hquot,Nat.mul_add,Nat.mul_one]
  have hdrop : ∀ k, (chunk ++ stream).drop (k+size) = stream.drop k := by
    intro k
    rw [Nat.add_comm,← hchunk,List.drop_append,List.drop_eq_nil_of_le (Nat.le_add_right _ _),
      List.nil_append,
      Nat.add_sub_cancel_left]
  rw [show size*((len-1)/size)+size-size = size*((len-1)/size)-size+size by omega,hdrop,hdrop]
  congr 3
  omega

end drained

/-- To drain a line is to take the reader past it, and leaves its last bufferful in the buffer. -/
lemma Placed.drains {n : ℕ} {chunk : List UInt8} (hr : Placed src start r) (hheld : r.held = [])
    (hchunk : chunk.length = hostBufferBytes) (hbuf : r.buf.take hostBufferBytes = chunk)
    (hn : r.rest.length < n) :
    Placed src (start+(firstLine 10 r.rest).length) (discardTo 10 n r).2 ∧
    (discardTo 10 n r).2.buf.take hostBufferBytes = drained hostBufferBytes (chunk ++ r.rest)
      (hostBufferBytes+(firstLine 10 r.rest).length) (hostBufferBytes+arrived r.src.reads
        (firstLine 10 r.rest).length) := by
  induction n generalizing r start chunk with
  | zero => omega
  | succ n ih =>
    obtain ⟨place,err,r',hread,hslice⟩ := exists_readSlice hr.sound
    have hplaced := hr.slices hslice
    have hlaid : r'.buf.take hostBufferBytes = overwrite chunk 0 (r'.view place ++ r'.held) := by
      rw [hslice.lays (.inr hheld),take_overwrite_of_le (hr.size ▸ hslice.room),hbuf]
    have hroom := hslice.room
    rw [hr.size,List.length_append] at hroom
    have hflat : r.rest = r.src.reads.flatten := by rw [Bufio.rest,hheld,List.nil_append]
    rw [discardTo,hread]
    cases hslice.gives with
    | line line_eq rest ends =>
      have hmem : (10 : UInt8) ∈ r'.view place := by
        rw [line_eq,firstLine,if_pos ends]
        simp
      have hpos := List.length_pos_of_mem hmem
      have hahead := hslice.ahead hmem (by rw [hheld]; exact hpos)
      rw [hheld,List.length_nil,Nat.zero_add,Nat.sub_zero,Nat.sub_zero,hr.size] at hahead
      have hsplit : r.rest = r'.view place ++ r'.held ++ r'.src.reads.flatten := by
        rw [List.append_assoc,line_eq]
        show r.rest = firstLine 10 r.rest ++ r'.rest
        rw [rest,firstLine_append_otherLines]
      refine ⟨line_eq ▸ hplaced,?_⟩
      show r'.buf.take hostBufferBytes = _
      rw [hlaid,← line_eq,drained_last hchunk (by omega) (by omega),Nat.add_sub_cancel_left,
        ← hahead,hsplit,List.take_left]
    | eof line_eq rest endless =>
      have hnone : r'.held = [] := (List.append_eq_nil_iff.mp rest).1
      have hfirst : firstLine 10 r.rest = r.rest := firstLine_of_not_mem endless
      rw [hnone,List.append_nil,line_eq] at hlaid
      rw [hnone,line_eq,List.length_nil,Nat.add_zero] at hroom
      rw [hfirst]
      refine ⟨line_eq ▸ hplaced,?_⟩
      show r'.buf.take hostBufferBytes = _
      by_cases hnil : r.rest = []
      · rw [hlaid,hnil,overwrite_nil,drained_short (by simp),List.append_nil,← hchunk,
          List.take_length]
      · have hpos := List.length_pos_of_ne_nil hnil
        have harrived := @le_arrived r.rest.length r.src.reads (hflat ▸ le_refl _)
        rw [hlaid,drained_last hchunk (by omega) (by omega),Nat.add_sub_cancel_left,
          List.take_of_length_le (by omega)]
    | full endless length rest none_held =>
      rw [hr.size] at hlaid length endless rest hplaced
      have hview : r'.buf.take hostBufferBytes = r'.view (0,hostBufferBytes) := by
        rw [hlaid,none_held,List.append_nil,overwrite_zero,List.drop_eq_nil_of_le (by omega),
          List.append_nil]
      have hless : r'.rest.length < n := by
        have := hr.sound.room
        rw [rest,List.length_append,length] at hn
        rw [hr.size] at this
        omega
      obtain ⟨hend,hdrained⟩ := ih hplaced none_held length hview hless
      have hfirst : firstLine 10 r.rest = r'.view (0,hostBufferBytes) ++ firstLine 10 r'.rest := by
        rw [rest,firstLine_append endless]
      refine ⟨?_,?_⟩
      · rw [hfirst,List.length_append,← Nat.add_assoc]
        exact hend
      · refine hdrained.trans ?_
        rw [hfirst,List.length_append,length,rest]
        by_cases hnil : r'.rest = []
        · have harrived : hostBufferBytes ≤ arrived r.src.reads hostBufferBytes := by
            apply le_arrived
            rw [← hflat,rest,List.length_append,length]
            omega
          rw [hnil]
          simp only [firstLine_of_not_mem (List.not_mem_nil),List.length_nil,Nat.add_zero,
            List.append_nil]
          rw [drained_short (le_refl _),drained_last hchunk (by simp [hostBufferBytes]) (by omega),
            Nat.add_sub_cancel_left,Nat.min_eq_left harrived,List.take_of_length_le (by omega),
            overwrite_zero,
            List.drop_eq_nil_of_le (by omega),List.append_nil]
        · have hpos : 0 < (firstLine 10 r'.rest).length :=
            List.length_pos_of_ne_nil (firstLine_ne_nil hnil)
          have hafter := hslice.after (firstLine 10 r'.rest).length hpos
          rw [hr.size,none_held,hheld,List.append_nil,List.length_nil,Nat.sub_zero,length] at hafter
          rw [hafter,drained_step hchunk (by omega)]

/-- What a call gives, and where it leaves the reader. -/
structure ReadsLine (src : ByteSource) (max : ℤ) (start : ℕ)
    (res : (List UInt8 × List UInt8 × Option LineErr) × Bufio) : Prop where
  placed : Placed src (start+(firstLine 10 (src.reads.flatten.drop start)).length) res.2
  result : (res.1.1,res.1.2.2) = if src.reads.flatten.drop start = [] then
    ([],some (.read .eof)) else
    countedRead max (keptHead src max start (firstLine 10 (src.reads.flatten.drop start)))
      (firstLine 10 (src.reads.flatten.drop start))

/-- The beginning of a line is kept that is not refused before its end is seen. -/
lemma keptHead_seen {raw : List UInt8} (h : raw.length ≤ hostBufferBytes ∨ hostBufferBytes ≤ max) :
    keptHead src max start raw = raw.take idHeadBytes := by
  rw [keptHead,if_neg]
  omega

lemma idHeadBytes_le : idHeadBytes ≤ hostBufferBytes := by decide

/-- The head of a line that is refused at a whole bufferful of it. -/
lemma Placed.keeps_drained {buf chunk : List UInt8} {r' : Bufio}
    (hr : Placed src (start+buf.length+chunk.length) r)
    (hstream : src.reads.flatten.drop start = buf ++ (chunk ++ r.rest)) (hmem : 10 ∉ buf ++ chunk)
    (hheld : r.held = []) (hchunk : chunk.length = hostBufferBytes)
    (hbuf : r.buf.take hostBufferBytes = chunk) (hwhole : buf = [] ∧ max < hostBufferBytes ∨
      hostBufferBytes ≤ buf.length ∧ hostBufferBytes ≤ max)
    (hdrain : r' = (discardTo 10 (r.rest.length+1) r).2) :
    Placed src (start+(firstLine 10 (src.reads.flatten.drop start)).length) r' ∧
    keepHead (buf.take idHeadBytes) (r'.view (0,hostBufferBytes)) =
      keptHead src max start (firstLine 10 (src.reads.flatten.drop start)) := by
  obtain ⟨hend,hdrained⟩ := hr.drains hheld hchunk hbuf (Nat.lt_succ_self _)
  rw [← hdrain] at hend hdrained
  have hfirst : firstLine 10 (src.reads.flatten.drop start) = buf ++ chunk ++
    firstLine 10 r.rest := by
    rw [hstream,← List.append_assoc,firstLine_append hmem]
  have hlen := congrArg List.length hfirst
  simp only [List.length_append] at hlen
  refine ⟨?_,?_⟩
  · rw [hlen]
    rwa [Nat.add_assoc start,Nat.add_assoc start] at hend
  · have hid := idHeadBytes_le
    obtain ⟨rfl,hmax⟩ | ⟨hlong,hmax⟩ := hwhole
    · have hview : r'.view (0,hostBufferBytes) = r'.buf.take hostBufferBytes := List.drop_zero
      simp only [List.nil_append,List.length_nil,Nat.zero_add,
        Nat.add_zero] at hstream hlen hfirst hr
      have hkeep : keepHead (([] : List UInt8).take idHeadBytes) (r'.view (0,hostBufferBytes)) =
          (r'.buf.take hostBufferBytes).take idHeadBytes := by rw [keepHead_take,hview,
            List.nil_append]
      rw [hkeep,hdrained]
      by_cases hmore : hostBufferBytes < (firstLine 10 (src.reads.flatten.drop start)).length
      · have hafter := hr.after (firstLine 10 r.rest).length (by omega)
        rw [hheld,List.length_nil,Nat.add_zero] at hafter
        rw [keptHead,if_pos ⟨hmore,hmax⟩,hstream,← hstream,hlen,← Nat.add_assoc,hafter,hchunk,
          hstream]
        congr 2
        omega
      · have hnone : firstLine 10 r.rest = [] := List.length_eq_zero_iff.mp (by omega)
        rw [keptHead_seen (.inl (by omega)),hfirst,hnone,List.length_nil,Nat.add_zero,
          drained_short (le_refl _),
          List.append_nil,← hchunk,List.take_left]
    · rw [keptHead_seen (.inr hmax),keepHead_take,hfirst,List.take_append_of_le_length (by omega),
        List.append_assoc,
        List.take_append_of_le_length (by omega)]

lemma readLineFrom_reads {n : ℕ} (buf : List UInt8) (hr : Placed src (start+buf.length) r)
    (hstream : src.reads.flatten.drop start = buf ++ r.rest) (hn : r.rest.length < n)
    (hbuf : 10 ∉ buf)
    (hsome : buf = [] ∨ hostBufferBytes ≤ buf.length) (hmax : (buf.length : ℤ) ≤ max) :
    ReadsLine src max start (readLineFrom max n buf (buf.take idHeadBytes) r) := by
  induction n generalizing r buf with
  | zero => omega
  | succ n ih =>
    obtain ⟨chunk,err,r',hread,hslice⟩ := exists_readSlice hr.sound
    have hplaced := hr.slices hslice
    have hroom := hslice.room
    rw [hr.size,List.length_append] at hroom
    -- a line whose end is in this slice is refused with its beginning kept
    have hseen : (buf ++ r'.view chunk).length ≤ hostBufferBytes ∨ hostBufferBytes ≤ max := by
      rw [List.length_append]
      obtain rfl | hlong := hsome
      · left
        rw [List.length_nil]
        omega
      · right
        omega
    rw [readLineFrom,hread]
    simp only [keepHead_take]
    cases hslice.gives with
    | line line_eq rest ends =>
      have hsome' : buf ++ r.rest ≠ [] :=
        List.append_ne_nil_of_right_ne_nil _ (List.ne_nil_of_mem ends)
      have hfirst : firstLine 10 (src.reads.flatten.drop start) = buf ++ r'.view chunk := by
        rw [hstream,firstLine_append hbuf,line_eq]
      have hend : Placed src (start+(firstLine 10 (src.reads.flatten.drop start)).length) r' := by
        rw [hfirst,List.length_append,← Nat.add_assoc]
        exact hplaced
      by_cases hlarge : max < buf.length+(r'.view chunk).length
      · rw [if_pos hlarge]
        refine ⟨hend,?_⟩
        rw [hfirst,hstream,if_neg hsome',countedRead_large (by simpa using hlarge),
          keptHead_seen hseen]
        rfl
      · rw [if_neg hlarge]
        refine ⟨hend,?_⟩
        rw [hfirst,hstream,if_neg hsome',countedRead_fits (by simpa using hlarge)]
    | eof line_eq rest endless =>
      have hfirst : firstLine 10 (src.reads.flatten.drop start) = buf ++ r'.view chunk := by
        rw [hstream,firstLine_append hbuf,firstLine_of_not_mem endless,line_eq]
      have hend : Placed src (start+(firstLine 10 (src.reads.flatten.drop start)).length) r' := by
        rw [hfirst,List.length_append,← Nat.add_assoc]
        exact hplaced
      rw [← line_eq] at hstream
      by_cases hlarge : max < buf.length+(r'.view chunk).length
      · rw [if_pos hlarge]
        have hsome' : buf ++ r'.view chunk ≠ [] := by
          intro hnil
          rw [← Nat.cast_add,← List.length_append,hnil] at hlarge
          have := Int.natCast_nonneg buf.length
          simp only [List.length_nil,Nat.cast_zero] at hlarge
          omega
        refine ⟨hend,?_⟩
        rw [hfirst,hstream,if_neg hsome',countedRead_large (by simpa using hlarge),
          keptHead_seen hseen]
        rfl
      · rw [if_neg hlarge]
        by_cases hsome' : buf ++ r'.view chunk = []
        · simp only [hsome',ne_eq,not_true_eq_false,and_false,if_false]
          refine ⟨hend,?_⟩
          rw [hstream,if_pos hsome']
        · simp only [ne_eq,hsome',not_false_eq_true,and_self,if_true]
          refine ⟨hend,?_⟩
          rw [hfirst,hstream,if_neg hsome',countedRead_fits (by simpa using hlarge)]
    | full endless length rest none_held =>
      rw [hr.size] at hplaced endless length rest hroom
      rw [hr.size]
      have hpos : 0 < hostBufferBytes := by decide
      have hnone : 10 ∉ buf ++ r'.view (0,hostBufferBytes) := by simp [hbuf,endless]
      have hstream' : src.reads.flatten.drop start = buf ++
        (r'.view (0,hostBufferBytes) ++ r'.rest) := rest ▸ hstream
      by_cases hlarge : max < buf.length+(r'.view (0,hostBufferBytes)).length
      · rw [if_pos hlarge]
        simp only [if_true]
        have hlaid : r'.buf.take hostBufferBytes = r'.view (0,hostBufferBytes) :=
          List.drop_zero.symm
        have hwhole : buf = [] ∧ max < hostBufferBytes ∨ hostBufferBytes ≤ buf.length ∧
          hostBufferBytes ≤ max := by
          obtain rfl | hlong := hsome
          · left
            rw [length] at hlarge
            exact ⟨rfl,by simpa using hlarge⟩
          · exact .inr ⟨hlong,by omega⟩
        obtain ⟨hend,hkept⟩ := hplaced.keeps_drained hstream' hnone none_held length hlaid
          hwhole rfl
        have hlong : max < (firstLine 10 (src.reads.flatten.drop start)).length := by
          rw [hstream',← List.append_assoc,firstLine_append hnone]
          simp only [List.length_append]
          push_cast
          omega
        have hsome' : src.reads.flatten.drop start ≠ [] := by
          intro hnil
          rw [hnil] at hlong
          have := Int.natCast_nonneg buf.length
          simp only [firstLine_of_not_mem (List.not_mem_nil),List.length_nil,Nat.cast_zero] at hlong
          omega
        refine ⟨hend,?_⟩
        rw [if_neg hsome',countedRead_large hlong,← hkept,keepHead_take]
      · rw [if_neg hlarge]
        refine ih (buf ++ r'.view (0,hostBufferBytes)) ?_ ?_ ?_ hnone ?_ (by simpa using hlarge)
        · rw [List.length_append,← Nat.add_assoc]
          exact hplaced
        · rw [hstream',List.append_assoc]
        · rw [rest,List.length_append] at hn
          omega
        · right
          rw [List.length_append]
          omega

/-- A call with a bound that is not negative gives the next line, its end counted, or the end of the
stream. -/
theorem readLine_reads (hr : Placed src start r) (hmax : 0 ≤ max) :
    ReadsLine src max start (readLine r max) := by
  refine readLineFrom_reads [] hr ?_ (Nat.lt_succ_self _) (by simp) (.inl rfl) (by simpa using hmax)
  rw [hr.rest]
  rfl

lemma streamLines_eq {stream : List UInt8} (h : stream ≠ []) :
    streamLines stream = firstLine 10 stream :: streamLines (otherLines 10 stream) := by
  induction stream with
  | nil => exact (h rfl).elim
  | cons c stream ih =>
    rw [streamLines]
    by_cases hc : c = 10
    · rw [if_pos hc,hc,firstLine_cons,otherLines_cons]
    · have hnone : (10 : UInt8) ∉ [c] := by simpa using Ne.symm hc
      have hfirst := firstLine_append hnone stream
      have hother := otherLines_append hnone stream
      simp only [List.singleton_append] at hfirst hother
      rw [if_neg hc,hfirst,hother]
      by_cases hnil : stream = []
      · subst hnil
        rfl
      · rw [ih hnil]

/-- Where a line of a stream begins, counted from none. -/
def lineStart (stream : List UInt8) (n : ℕ) : ℕ := ((streamLines stream).take n).flatten.length

/-- A call later is a call in what follows the first line. -/
lemma streamLines_drop {stream : List UInt8} (hnil : stream.drop start ≠ []) (n : ℕ) :
    (streamLines (stream.drop start))[n+1]? =
        (streamLines (stream.drop (start+(firstLine 10 (stream.drop start)).length)))[n]? ∧
      start+lineStart (stream.drop start) (n+1) = start+(firstLine 10 (stream.drop start)).length+
        lineStart (stream.drop (start+(firstLine 10 (stream.drop start)).length)) n := by
  have hother : otherLines 10 (stream.drop start) = stream.drop
    (start+(firstLine 10 (stream.drop start)).length) := by
    rw [← List.drop_drop]
    nth_rewrite 3 [← @firstLine_append_otherLines 10 (stream.drop start)]
    rw [List.drop_left]
  rw [← hother,lineStart,lineStart,streamLines_eq hnil,List.getElem?_cons_succ,List.take_succ_cons]
  refine ⟨rfl,?_⟩
  rw [List.flatten_cons,List.length_append]
  omega

/-- With a bound that is not negative, calls give the lines in order, their ends counted, and then
the end. -/
lemma callAt_eq (hr : Placed src start r) (hmax : 0 ≤ max) (n : ℕ) :
    callAt r max n = match (streamLines (src.reads.flatten.drop start))[n]? with
    | some raw => countedRead max
        (keptHead src max (start+lineStart (src.reads.flatten.drop start) n) raw) raw
    | none => ([],some (.read .eof)) := by
  induction n generalizing r start with
  | zero =>
    rw [callAt,afterCalls]
    refine (readLine_reads hr hmax).result.trans ?_
    split_ifs with hnil
    · rw [hnil]
      rfl
    · rw [streamLines_eq hnil]
      rfl
  | succ n ih =>
    have hread := readLine_reads hr hmax
    have hstep : callAt r max (n+1) = callAt (readLine r max).2 max n := rfl
    rw [hstep,ih hread.placed]
    by_cases hnil : src.reads.flatten.drop start = []
    · rw [← List.drop_drop,hnil,List.drop_nil]
      rfl
    · obtain ⟨hline,hplace⟩ := streamLines_drop hnil n
      rw [hline,hplace]

/-- With a negative bound every call refuses a line. -/
lemma callAt_negative (hmax : max < 0) (n : ℕ) :
    ∃ head, (callAt r max n).2 = some (.lineTooLarge max head) := by
  rw [callAt]
  generalize afterCalls max n r = r'
  rw [readLine,readLineFrom]
  obtain ⟨chunk,err,r'⟩ := r'.readSlice 10
  have hlarge : max < ([] : List UInt8).length+(r'.view chunk).length := by
    simp only [List.length_nil]
    omega
  simp only [if_pos hlarge]
  exact ⟨_,rfl⟩

end reading

section framed
variable {max : ℤ} {raw : List UInt8}

/-- A line with an LF fits with its end, or is too long without it and fills the head; one without
an LF is too long, or does not end in a CR. -/
def Framed (max : ℤ) (raw : List UInt8) : Prop :=
  if raw.getLast? = some 10 then
    (raw.length : ℤ) ≤ max ∨ (max < (trimNewline raw).length ∧
      idHeadBytes ≤ (trimNewline raw).length)
  else max < raw.length ∨ raw.getLast? ≠ some 13

instance (max : ℤ) (raw : List UInt8) : Decidable (Framed max raw) :=
  inferInstanceAs (Decidable (ite _ _ _))

lemma trimSuffixByte_starts (b : List UInt8) (c : UInt8) : trimSuffixByte b c <+: b := by
  unfold trimSuffixByte
  split_ifs
  · exact List.dropLast_prefix b
  · exact List.prefix_refl b

/-- What is cut off a line that has an LF. -/
lemma exists_terminator (h : raw.getLast? = some 10) :
    ∃ t, raw = trimNewline raw ++ t ∧ t ≠ [] := by
  have hraw : raw ≠ [] := by
    rintro rfl
    cases h
  have hcut : trimSuffixByte raw 10 = raw.dropLast := if_pos h
  obtain ⟨t,ht⟩ := (trimSuffixByte_starts (trimSuffixByte raw 10) 13).trans
    (trimSuffixByte_starts raw 10)
  refine ⟨t,ht.symm,?_⟩
  rintro rfl
  have hle := (trimSuffixByte_starts (trimSuffixByte raw 10) 13).length_le
  have hlen := congrArg List.length ht
  have hpos := List.length_pos_of_ne_nil hraw
  rw [List.append_nil] at hlen
  rw [hcut,List.length_dropLast] at hle
  rw [hcut] at hlen
  omega

lemma trimNewline_unterminated (h : raw.getLast? ≠ some 10) :
    trimNewline raw = trimSuffixByte raw 13 := by
  rw [trimNewline,show trimSuffixByte raw 10 = raw from if_neg h]

/-- A call that keeps the beginning of a line treats it as it should just where the line is
framed. -/
lemma countedRead_take_eq_iff : countedRead max (raw.take idHeadBytes) raw = exactRead max raw ↔
    Framed max raw := by
  unfold exactRead Framed lineText
  by_cases hlast : raw.getLast? = some 10
  · simp only [if_pos hlast]
    obtain ⟨t,ht,hne⟩ := exists_terminator hlast
    have hpos := List.length_pos_of_ne_nil hne
    have hlen : raw.length = (trimNewline raw).length+t.length := by
      rw [← List.length_append,← ht]
    by_cases hlarge : max < raw.length
    · rw [countedRead_large hlarge]
      by_cases hmax : max < (trimNewline raw).length
      · rw [if_pos hmax]
        simp only [Prod.mk.injEq,true_and,Option.some.injEq,LineErr.lineTooLarge.injEq,hmax]
        constructor
        · intro htake
          right
          by_contra hshort
          have := congrArg List.length htake
          simp only [List.length_take] at this
          omega
        · rintro (hfits | hlong)
          · omega
          · nth_rewrite 1 [ht]
            exact List.take_append_of_le_length hlong
      · rw [if_neg hmax]
        simp only [Prod.mk.injEq,reduceCtorEq,and_false,false_iff,hmax,false_and,or_false]
        omega
    · rw [countedRead_fits hlarge,if_neg (by omega)]
      simp only [true_iff]
      left
      omega
  · simp only [if_neg hlast]
    by_cases hlarge : max < raw.length
    · rw [countedRead_large hlarge,if_pos hlarge]
      simp [hlarge]
    · rw [countedRead_fits hlarge,if_neg hlarge,trimNewline_unterminated hlast,trimSuffixByte]
      simp only [hlarge,false_or,Prod.mk.injEq,and_true]
      constructor
      · intro hsame hcr
        rw [if_pos hcr] at hsame
        have hpos : raw ≠ [] := by
          rintro rfl
          cases hcr
        have := List.length_pos_of_ne_nil hpos
        have := congrArg List.length hsame
        rw [List.length_dropLast] at this
        omega
      · intro hcr
        rw [if_neg hcr]

lemma length_le_trimSuffixByte (b : List UInt8) (c : UInt8) :
    b.length ≤ (trimSuffixByte b c).length+1 := by
  unfold trimSuffixByte
  split_ifs
  · rw [List.length_dropLast]
    omega
  · omega

/-- A line of more than a bufferful begins as its text does. -/
lemma take_lineText (h : hostBufferBytes < raw.length) :
    (lineText raw).take idHeadBytes = raw.take idHeadBytes := by
  have hid : idHeadBytes+2 ≤ hostBufferBytes := by decide
  have hstarts : lineText raw <+: raw := by
    unfold lineText trimNewline
    split_ifs
    · exact (trimSuffixByte_starts _ _).trans (trimSuffixByte_starts _ _)
    · exact List.prefix_refl _
  have hlen : raw.length ≤ (lineText raw).length+2 := by
    unfold lineText trimNewline
    split_ifs
    · have h1 := length_le_trimSuffixByte raw 10
      have h2 := length_le_trimSuffixByte (trimSuffixByte raw 10) 13
      omega
    · omega
  obtain ⟨t,ht⟩ := hstarts
  nth_rewrite 2 [← ht]
  rw [List.take_append_of_le_length (by omega)]

/-- A line that is refused in its first bufferful has the beginning that the drain leaves in the
buffer. -/
def HeadStands (src : ByteSource) (max : ℤ) (start : ℕ) (raw : List UInt8) : Prop :=
  hostBufferBytes < raw.length ∧ max < hostBufferBytes →
    (drained hostBufferBytes (src.reads.flatten.drop start) raw.length
      (arrived src.reads (start+raw.length)-start)).take idHeadBytes = raw.take idHeadBytes

/-- A call treats a line as it should just where the line is framed and its head stands. -/
lemma countedRead_eq_iff {src : ByteSource} {start : ℕ} :
    countedRead max (keptHead src max start raw) raw = exactRead max raw ↔
      Framed max raw ∧ HeadStands src max start raw := by
  by_cases hdrains : hostBufferBytes < raw.length ∧ max < hostBufferBytes
  · have hlarge : max < raw.length := by omega
    rw [keptHead,if_pos hdrains,countedRead_large hlarge,← countedRead_take_eq_iff,
      countedRead_large hlarge]
    unfold HeadStands exactRead
    rw [take_lineText hdrains.1]
    by_cases htext : max < (lineText raw).length
    · rw [if_pos htext]
      simp only [Prod.mk.injEq,true_and,Option.some.injEq,LineErr.lineTooLarge.injEq,hdrains,
        and_self,true_imp_iff]
    · rw [if_neg htext]
      simp
  · rw [keptHead,if_neg hdrains,countedRead_take_eq_iff]
    exact ⟨fun h => ⟨h,fun hd => absurd hd hdrains⟩,And.left⟩

end framed

/-- Calls give exactly the lines of the stream, each refused by its own length, and then the end. -/
def ExactFraming (src : ByteSource) (max : ℤ) : Prop :=
  ∀ n, callAt (hostReader src) max n = exactCall src.reads.flatten max n

/-- Calls give exactly the lines of a stream just where each line is framed and its head stands. -/
theorem exactFraming_iff (src : ByteSource) (max : ℤ) (hsteady : Bufio.steady 0 src.reads) :
    ExactFraming src max ↔ 0 ≤ max ∧ ∀ n raw, (streamLines src.reads.flatten)[n]? = some raw →
      Framed max raw ∧ HeadStands src max (lineStart src.reads.flatten n) raw := by
  have hr := placed_hostReader hsteady
  have hcalls : 0 ≤ max → ∀ n raw, (streamLines src.reads.flatten)[n]? = some raw →
      callAt (hostReader src) max n =
        countedRead max (keptHead src max (lineStart src.reads.flatten n) raw) raw := by
    intro hmax n raw hn
    have hcall := callAt_eq hr hmax n
    rw [List.drop_zero,hn,Nat.zero_add] at hcall
    exact hcall
  constructor
  · intro hexact
    have hmax : 0 ≤ max := by
      by_contra hneg
      obtain ⟨head,hrefused⟩ :=
        @callAt_negative (hostReader src) _ (Int.not_le.mp hneg)
        (streamLines src.reads.flatten).length
      rw [hexact,exactCall,List.getElem?_eq_none le_rfl] at hrefused
      cases hrefused
    refine ⟨hmax,fun n raw hn => ?_⟩
    have hcall := hexact n
    rw [hcalls hmax n raw hn,exactCall,hn] at hcall
    exact countedRead_eq_iff.mp hcall
  · rintro ⟨hmax,hframed⟩ n
    rw [exactCall]
    cases hn : (streamLines src.reads.flatten)[n]? with
    | none =>
      have hcall := callAt_eq hr hmax n
      rw [List.drop_zero,hn] at hcall
      exact hcall
    | some raw =>
      rw [hcalls hmax n raw hn]
      exact countedRead_eq_iff.mpr (hframed n raw hn)

/-- Two lines that fit, read in three pieces. -/
theorem exactFraming_pieces : ExactFraming ⟨[[104,105,13],[],[10,98]],false⟩ 4 := by
  refine (exactFraming_iff ⟨[[104,105,13],[],[10,98]],
    false⟩ 4 (by simp [Bufio.steady,maxConsecutiveEmptyReads])).mpr
    ⟨by decide,?_⟩
  have hshort : ∀ raw ∈ streamLines [104,105,13,10,98], Framed 4 raw ∧
    ¬ hostBufferBytes < raw.length := by decide
  intro n raw hn
  obtain ⟨hframed,hlen⟩ := hshort raw (List.mem_of_getElem? hn)
  exact ⟨hframed,fun hdrains => absurd hdrains.1 hlen⟩

/-- A line of as many bytes as the bound is refused for its LF. -/
theorem not_exactFraming_at_bound : ¬ ExactFraming ⟨[[97,98,99,10]],false⟩ 3 := by
  intro h
  have hcall : callAt (hostReader ⟨[[97,98,99,10]],false⟩) 3 0 ≠ exactCall [97,98,99,
    10] 3 0 := by decide
  exact hcall (h 0)

end Manvi.Serve
