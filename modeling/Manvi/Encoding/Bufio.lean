import Mathlib

/-! A buffered reader: bytes arrive in reads of any size and are taken up to a delimiter, a
bufferful at most. -/
namespace Manvi.Encoding

/-- What each read of a source would give, and whether its end comes with the last of them. -/
structure ByteSource where
  reads : List (List UInt8)
  eofWithLast : Bool
  deriving Repr, DecidableEq

inductive ReadErr where
  | eof
  | noProgress
  | bufferFull
  deriving Repr, DecidableEq

/-- A buffer of a fixed size, as far as it has been written to, with what is held between two places
of it. -/
structure Bufio where
  size : ℕ
  buf : List UInt8
  r : ℕ
  w : ℕ
  err : Option ReadErr
  src : ByteSource
  deriving Repr, DecidableEq

def minReadBufferSize : ℕ := 16

def maxConsecutiveEmptyReads : ℕ := 100

/-- One read into so many free bytes; what does not fit stays for the next. -/
def ByteSource.read (free : ℕ) : ByteSource → List UInt8 × Option ReadErr × ByteSource
  | ⟨[],e⟩ => ([],some .eof,⟨[],e⟩)
  | ⟨c :: rest,e⟩ =>
    if c.length ≤ free then (c,if rest.isEmpty && e then some .eof else none,⟨rest,e⟩)
    else (c.take free,none,⟨c.drop free :: rest,e⟩)

/-- Lay bytes over a buffer, from a place on. -/
def overwrite (buf : List UInt8) (start : ℕ) (bytes : List UInt8) : List UInt8 :=
  buf.take start ++ bytes ++ buf.drop (start+bytes.length)

namespace Bufio

def new (size : ℕ) (src : ByteSource) : Bufio := ⟨max size minReadBufferSize,[],0,0,none,src⟩

/-- What lies in the buffer between two places. A slice that a reader gave is no more than that:
what is read later is laid over it. -/
def view (b : Bufio) (slice : ℕ × ℕ) : List UInt8 := (b.buf.take slice.2).drop slice.1

/-- The bytes that have been read and not yet given. -/
def held (b : Bufio) : List UInt8 := b.view (b.r,b.w)

/-- Move what is held to the beginning of the buffer. -/
def slide (b : Bufio) : Bufio :=
  if 0 < b.r then { b with buf := overwrite b.buf 0 b.held, r := 0, w := b.w-b.r } else b

/-- Read until something arrives, for a number of tries. -/
def readMore : ℕ → Bufio → Bufio
  | 0,b => { b with err := some .noProgress }
  | tries+1,b =>
    let (bytes,err,src) := b.src.read (b.size-b.w)
    let b' := { b with
      buf := overwrite b.buf b.w bytes, w := b.w+bytes.length, err := err, src := src }
    if err.isSome || bytes ≠ [] then b' else readMore tries b'

def fill (b : Bufio) : Bufio := b.slide.readMore maxConsecutiveEmptyReads

/-- The place of the bytes up to a delimiter, for so many fills. -/
def slice (delim : UInt8) : ℕ → Bufio → (ℕ × ℕ) × Option ReadErr × Bufio
  | 0,b => ((b.r,b.w),some .bufferFull,{ b with r := b.w })
  | fills+1,b =>
    if delim ∈ b.held then
      let past := b.r+b.held.idxOf delim+1
      ((b.r,past),none,{ b with r := past })
    else match b.err with
      | some e => ((b.r,b.w),some e,{ b with r := b.w, err := none })
      | none =>
        if b.size ≤ b.w-b.r then ((0,b.size),some .bufferFull,{ b with r := b.w })
        else slice delim fills b.fill

/-- A fill adds a byte or meets an error, so there are no more of them than bytes in the buffer. -/
def readSlice (b : Bufio) (delim : UInt8) : (ℕ × ℕ) × Option ReadErr × Bufio :=
  slice delim (b.size+2) b

end Bufio

/-- How much of a source has arrived with the read that brings the first so many bytes of it. -/
def arrived : List (List UInt8) → ℕ → ℕ
  | [],_ => 0
  | c :: rest,n => if n ≤ c.length then c.length else c.length+arrived rest (n-c.length)

/-- The first line of some bytes, with its delimiter where it has one. -/
def firstLine (delim : UInt8) (b : List UInt8) : List UInt8 :=
  if delim ∈ b then b.takeWhile (· ≠ delim) ++ [delim] else b

/-- What follows the first line. -/
def otherLines (delim : UInt8) (b : List UInt8) : List UInt8 := (b.dropWhile (· ≠ delim)).tail

section lines
variable {delim : UInt8} {a b : List UInt8}

lemma takeWhile_of_not_mem (h : delim ∉ a) : a.takeWhile (· ≠ delim) = a := by
  refine List.takeWhile_eq_self_iff.mpr ?_
  intro x hx
  simp only [ne_eq,decide_not,Bool.not_eq_true',decide_eq_false_iff_not]
  rintro rfl
  exact h hx

lemma dropWhile_of_not_mem (h : delim ∉ a) : a.dropWhile (· ≠ delim) = [] := by
  refine List.dropWhile_eq_nil_iff.mpr ?_
  intro x hx
  simp only [ne_eq,decide_not,Bool.not_eq_true',decide_eq_false_iff_not]
  rintro rfl
  exact h hx

lemma firstLine_of_not_mem (h : delim ∉ b) : firstLine delim b = b := if_neg h

lemma otherLines_of_not_mem (h : delim ∉ b) : otherLines delim b = [] := by
  rw [otherLines,dropWhile_of_not_mem h]
  rfl

/-- Bytes without a delimiter belong to the line that follows. -/
lemma firstLine_append (h : delim ∉ a) (b : List UInt8) :
    firstLine delim (a ++ b) = a ++ firstLine delim b := by
  unfold firstLine
  by_cases hb : delim ∈ b
  · rw [if_pos (List.mem_append_right a hb),if_pos hb,List.takeWhile_append,takeWhile_of_not_mem h,
      if_pos rfl,List.append_assoc]
  · rw [if_neg hb,if_neg]
    simp [h,hb]

lemma otherLines_append (h : delim ∉ a) (b : List UInt8) :
    otherLines delim (a ++ b) = otherLines delim b := by
  unfold otherLines
  rw [List.dropWhile_append,dropWhile_of_not_mem h]
  rfl

@[simp] lemma firstLine_cons (rest : List UInt8) : firstLine delim (delim :: rest) = [delim] := by
  simp [firstLine]

@[simp] lemma otherLines_cons (rest : List UInt8) : otherLines delim (delim :: rest) = rest := by
  simp [otherLines]

lemma firstLine_line (h : delim ∉ a) (rest : List UInt8) :
    firstLine delim (a ++ delim :: rest) = a ++ [delim] := by
  rw [firstLine_append h,firstLine_cons]

lemma otherLines_line (h : delim ∉ a) (rest : List UInt8) :
    otherLines delim (a ++ delim :: rest) = rest := by
  rw [otherLines_append h,otherLines_cons]

lemma firstLine_append_otherLines (b : List UInt8) :
    firstLine delim b ++ otherLines delim b = b := by
  by_cases hb : delim ∈ b
  · obtain ⟨l,rest,rfl,hl⟩ := List.eq_append_cons_of_mem hb
    rw [firstLine_line hl,otherLines_line hl,List.append_assoc]
    rfl
  · rw [firstLine_of_not_mem hb,otherLines_of_not_mem hb,List.append_nil]

lemma firstLine_ne_nil (h : b ≠ []) : firstLine delim b ≠ [] := by
  unfold firstLine
  split_ifs
  · simp
  · exact h

end lines

section overwrite
variable {buf a b : List UInt8}

lemma overwrite_zero (buf bytes : List UInt8) :
    overwrite buf 0 bytes = bytes ++ buf.drop bytes.length := by
  simp [overwrite]

@[simp] lemma overwrite_nil (buf : List UInt8) : overwrite buf 0 [] = buf := by
  simp [overwrite]

/-- What is laid after some bytes of a buffer is laid from its beginning with them. -/
lemma overwrite_take {w : ℕ} (hw : w ≤ buf.length) (bytes : List UInt8) :
    overwrite buf w bytes = overwrite buf 0 (buf.take w ++ bytes) := by
  rw [overwrite_zero,overwrite,List.length_append,List.length_take,Nat.min_eq_left hw]

lemma overwrite_of_begins (h : a <+: buf) : overwrite buf 0 a = buf := by
  obtain ⟨t,rfl⟩ := h
  rw [overwrite_zero,List.drop_left]

/-- Nothing is left of bytes over which as many others are laid. -/
lemma overwrite_overwrite (h : a.length ≤ b.length) :
    overwrite (overwrite buf 0 a) 0 b = overwrite buf 0 b := by
  simp only [overwrite_zero]
  rw [List.drop_append,List.drop_eq_nil_of_le h,List.nil_append,List.drop_drop]
  congr 2
  omega

lemma length_le_overwrite (buf a : List UInt8) : a.length ≤ (overwrite buf 0 a).length := by
  rw [overwrite_zero,List.length_append]
  omega

lemma take_overwrite (buf a : List UInt8) : (overwrite buf 0 a).take a.length = a := by
  rw [overwrite_zero,List.take_left']
  rfl

lemma take_overwrite_of_le {n : ℕ} (h : a.length ≤ n) :
    (overwrite buf 0 a).take n = overwrite (buf.take n) 0 a := by
  rw [overwrite_zero,overwrite_zero,List.take_append,List.take_of_length_le h,List.drop_take]

end overwrite

section arrived
variable {c : List UInt8} {rest : List (List UInt8)} {n : ℕ}

lemma arrived_within (h : n ≤ c.length) : arrived (c :: rest) n = c.length := if_pos h

lemma arrived_beyond (c : List UInt8) (rest : List (List UInt8)) (h : 0 < n) :
    arrived (c :: rest) (c.length+n) = c.length+arrived rest n := by
  rw [arrived,if_neg (by omega),Nat.add_sub_cancel_left]

/-- Reads that go on from others, after so many bytes of them. -/
def After (k : ℕ) (reads reads' : List (List UInt8)) : Prop :=
  ∀ n, 0 < n → arrived reads (k+n) = k+arrived reads' n

lemma After.refl (reads : List (List UInt8)) : After 0 reads reads := by
  intro n _
  rw [Nat.zero_add,Nat.zero_add]

lemma After.trans {j k : ℕ} {x y z : List (List UInt8)} (hxy : After j x y) (hyz : After k y z) :
    After (j+k) x z := by
  intro n hn
  rw [Nat.add_assoc,hxy _ (by omega),hyz n hn,Nat.add_assoc]

/-- A read that does not fit leaves what is over for the next. -/
lemma after_cut {k : ℕ} (hk : k ≤ c.length) : After k (c :: rest) (c.drop k :: rest) := by
  intro n hn
  simp only [arrived,List.length_drop]
  by_cases h : k+n ≤ c.length
  · rw [if_pos h,if_pos (by omega)]
    omega
  · rw [if_neg h,if_neg (by omega),show k+n-c.length = n-(c.length-k) by omega]
    omega

/-- What is there arrives. -/
lemma le_arrived {reads : List (List UInt8)} (h : n ≤ reads.flatten.length) :
    n ≤ arrived reads n := by
  induction reads generalizing n with
  | nil => simp_all
  | cons c reads ih =>
    rw [arrived]
    rw [List.flatten_cons,List.length_append] at h
    split_ifs with hc
    · exact hc
    · have hrest := @ih (n-c.length) (by omega)
      omega

end arrived

namespace Bufio
variable {b : Bufio} {delim : UInt8}

/-- The bytes a reader has still to give. -/
def rest (b : Bufio) : List UInt8 := b.held ++ b.src.reads.flatten

/-- Fewer than a hundred reads in a row are empty, counted on from some. -/
def steady : ℕ → List (List UInt8) → Prop
  | _,[] => True
  | n,r :: rest => if r = [] then n+1 < maxConsecutiveEmptyReads ∧ steady (n+1) rest
    else steady 0 rest

/-- A reader whose source makes progress, with no error but the end. -/
structure Sound (b : Bufio) : Prop where
  room : 0 < b.size
  order : b.r ≤ b.w
  fits : b.w ≤ b.size
  written : b.w ≤ b.buf.length
  steady : steady 0 b.src.reads
  ending : b.err = none ∨ (b.err = some .eof ∧ b.src.reads = [])

lemma sound_new (size : ℕ) {src : ByteSource} (h : steady 0 src.reads) : Sound (new size src) :=
  ⟨by simp [new,minReadBufferSize],le_refl _,Nat.zero_le _,le_refl _,h,.inl rfl⟩

lemma held_length (h : b.w ≤ b.buf.length) : b.held.length = b.w-b.r := by
  rw [held,view,List.length_drop,List.length_take,Nat.min_eq_left h]

lemma held_of_r (h : b.r = 0) : b.held = b.buf.take b.w := by
  rw [held,view,h,List.drop_zero]

/-- What moving the held bytes changes: their place, and nothing else that is read. -/
structure Slides (b b' : Bufio) : Prop where
  size : b'.size = b.size
  src : b'.src = b.src
  err : b'.err = b.err
  held : b'.held = b.held
  r : b'.r = 0
  w : b'.w = b.held.length
  written : b'.w ≤ b'.buf.length
  buf : b.r = 0 ∨ b.held = [] → b'.buf = b.buf

lemma slides_slide (h : b.w ≤ b.buf.length) : Slides b b.slide := by
  have hlen := held_length h
  unfold slide
  by_cases hr : 0 < b.r
  · rw [if_pos hr]
    refine ⟨rfl,rfl,rfl,?_,rfl,hlen.symm,?_,?_⟩
    · show ((overwrite b.buf 0 b.held).take (b.w-b.r)).drop 0 = b.held
      rw [List.drop_zero,← hlen,take_overwrite]
    · show b.w-b.r ≤ (overwrite b.buf 0 b.held).length
      rw [← hlen]
      exact length_le_overwrite _ _
    · rintro (hzero | hnil)
      · omega
      · show overwrite b.buf 0 b.held = b.buf
        rw [hnil,overwrite_nil]
  · rw [if_neg hr]
    have hzero : b.r = 0 := by omega
    exact ⟨rfl,rfl,rfl,rfl,hzero,by rw [hlen,hzero,Nat.sub_zero],h,fun _ => rfl⟩

/-- What reading comes to in a buffer that holds its bytes at its beginning: a byte more, or the
end. The read that brings a byte is over with the room or with what has arrived. -/
structure Fills (b b' : Bufio) : Prop where
  size : b'.size = b.size
  r : b'.r = 0
  rest : b'.rest = b.rest
  fits : b'.w ≤ b.size
  written : b'.w ≤ b'.buf.length
  steady : Bufio.steady 0 b'.src.reads
  more : (b'.err = none ∧ b.held.length < b'.held.length) ∨ (b'.err = some .eof ∧ b'.src.reads = [])
  starts : b.held <+: b'.held
  buf : b'.buf = overwrite b.buf 0 b'.held
  ahead : ∀ n, b.held.length+n ≤ b'.held.length → 0 < n →
    b.held.length+min (b.size-b.held.length) (arrived b.src.reads n) = b'.held.length
  after : After (b'.held.length-b.held.length) b.src.reads b'.src.reads

/-- A read that gives some bytes or the end fills. -/
lemma fills_read {bytes : List UInt8} {err : Option ReadErr} {src : ByteSource} (hr : b.r = 0)
    (hw : b.w ≤ b.buf.length) (hfits : b.w+bytes.length ≤ b.size)
    (hbytes : bytes ++ src.reads.flatten = b.src.reads.flatten) (hsteady : Bufio.steady 0 src.reads)
    (hmore : (err = none ∧ bytes ≠ []) ∨ (err = some .eof ∧ src.reads = []))
    (hahead : ∀ n, 0 < n → n ≤ bytes.length →
      min (b.size-b.w) (arrived b.src.reads n) = bytes.length)
    (hafter : After bytes.length b.src.reads src.reads) :
    Fills b { b with
      buf := overwrite b.buf b.w bytes, w := b.w+bytes.length, err := err, src := src } := by
  have hlen := held_length hw
  rw [hr,Nat.sub_zero] at hlen
  have hover : overwrite b.buf b.w bytes = overwrite b.buf 0 (b.held ++ bytes) := by
    rw [overwrite_take hw,held_of_r hr]
  have hheld : held { b with
    buf := overwrite b.buf b.w bytes, w := b.w+bytes.length, err := err, src := src } =
      b.held ++ bytes := by
    show ((overwrite b.buf b.w bytes).take (b.w+bytes.length)).drop b.r = b.held ++ bytes
    rw [hr,List.drop_zero,hover,← hlen,← List.length_append,take_overwrite]
  have hgrown : (b.held ++ bytes).length = b.w+bytes.length := by rw [List.length_append,hlen]
  refine ⟨rfl,hr,?_,hfits,?_,hsteady,?_,?_,?_,?_,?_⟩
  · rw [rest,hheld,rest,List.append_assoc,hbytes]
  · show b.w+bytes.length ≤ (overwrite b.buf b.w bytes).length
    rw [hover,← hgrown]
    exact length_le_overwrite _ _
  · refine hmore.imp_left (fun h => ⟨h.1,?_⟩)
    have := List.length_pos_of_ne_nil h.2
    rw [hheld,hgrown]
    omega
  · rw [hheld]
    exact List.prefix_append _ _
  · rw [hheld]
    exact hover
  · rw [hheld,hgrown,hlen]
    intro n hn hpos
    rw [hahead n hpos (by omega)]
  · rw [hheld,hgrown,hlen,Nat.add_sub_cancel_left]
    exact hafter

lemma fills_readMore (tries n : ℕ) (hn : n+tries = maxConsecutiveEmptyReads) (hr : b.r = 0)
    (hw : b.w ≤ b.buf.length)
    (hfree : b.w < b.size) (hsteady : steady n b.src.reads) (htries : 0 < tries) :
    Fills b (b.readMore tries) := by
  induction tries generalizing b n with
  | zero => omega
  | succ tries ih =>
    obtain ⟨size,buf,r,w,err,reads,e⟩ := b
    simp only [] at hr hw hfree hsteady
    cases reads with
    | nil =>
      refine fills_read hr hw (by simpa using hfree.le) rfl trivial (.inr ⟨rfl,rfl⟩) ?_
        (After.refl _)
      intro n hpos hle
      simp only [List.length_nil] at hle
      omega
    | cons c reads =>
      by_cases hwhole : c.length ≤ size-w
      · have hread : (ByteSource.mk (c :: reads) e).read (size-w)
            = (c,if reads.isEmpty && e then some .eof else none,⟨reads,e⟩) := if_pos hwhole
        have hafter : After c.length (c :: reads) reads := fun n hpos => arrived_beyond c reads hpos
        have hahead : ∀ n, 0 < n → n ≤ c.length →
          min (size-w) (arrived (c :: reads) n) = c.length := by
          intro n _ hle
          rw [arrived_within hle,Nat.min_eq_right hwhole]
        by_cases hend : (reads.isEmpty && e) = true
        · rw [if_pos hend] at hread
          have hnil : reads = [] := List.isEmpty_iff.mp (Bool.and_eq_true_iff.mp hend).1
          have hfill : (Bufio.mk size buf r w err ⟨c :: reads,e⟩).readMore (tries+1) =
              ⟨size,overwrite buf w c,r,w+c.length,some .eof,⟨reads,e⟩⟩ := by
            simp only [readMore,hread,Option.isSome_some,Bool.true_or,if_true]
          rw [hfill]
          exact @fills_read ⟨size,buf,r,w,err,⟨c :: reads,e⟩⟩ c _ ⟨reads,
            e⟩ hr hw (by simp only []; omega) rfl
            (by rw [hnil]; trivial) (.inr ⟨rfl,hnil⟩) hahead hafter
        · rw [if_neg hend] at hread
          by_cases hc : c = []
          · subst hc
            simp only [steady,if_true] at hsteady
            have hfill : (Bufio.mk size buf r w err ⟨[] :: reads,e⟩).readMore (tries+1) =
                (Bufio.mk size buf r w none ⟨reads,e⟩).readMore tries := by
              simp [readMore,hread,overwrite]
            rw [hfill]
            have hfills := @ih ⟨size,buf,r,w,none,⟨reads,e⟩⟩ (n+1) (by omega) hr hw hfree hsteady.2
              (by omega)
            have hskip : ∀ n, 0 < n → arrived ([] :: reads) n = arrived reads n := by
              intro n hpos
              simpa using arrived_beyond [] reads hpos
            refine ⟨hfills.size,hfills.r,hfills.rest,hfills.fits,hfills.written,hfills.steady,
              hfills.more,
              hfills.starts,hfills.buf,?_,?_⟩
            · intro n hle hpos
              show _+min _ (arrived ([] :: reads) n) = _
              rw [hskip n hpos]
              exact hfills.ahead n hle hpos
            · intro n hpos
              show arrived ([] :: reads) _ = _
              rw [hskip _ (by omega)]
              exact hfills.after n hpos
          · simp only [steady,if_neg hc] at hsteady
            have hfill : (Bufio.mk size buf r w err ⟨c :: reads,e⟩).readMore (tries+1) =
                ⟨size,overwrite buf w c,r,w+c.length,none,⟨reads,e⟩⟩ := by
              simp [readMore,hread,hc]
            rw [hfill]
            exact @fills_read ⟨size,buf,r,w,err,⟨c :: reads,e⟩⟩ c _ ⟨reads,
              e⟩ hr hw (by simp only []; omega) rfl
              hsteady (.inl ⟨rfl,hc⟩) hahead hafter
      · have hread : (ByteSource.mk (c :: reads) e).read (size-w)
            = (c.take (size-w),none,⟨c.drop (size-w) :: reads,e⟩) := if_neg hwhole
        have hlong : c ≠ [] := by
          rintro rfl
          exact hwhole (Nat.zero_le _)
        have hlen : (c.take (size-w)).length = size-w := List.length_take_of_le (by omega)
        have htake : c.take (size-w) ≠ [] := List.ne_nil_of_length_pos (by omega)
        have hdrop : c.drop (size-w) ≠ [] := by
          simp only [ne_eq,List.drop_eq_nil_iff]
          omega
        simp only [steady,if_neg hlong] at hsteady
        have hfill : (Bufio.mk size buf r w err ⟨c :: reads,e⟩).readMore (tries+1) =
            ⟨size,overwrite buf w (c.take (size-w)),r,w+(c.take (size-w)).length,none,
              ⟨c.drop (size-w) :: reads,e⟩⟩ := by
          simp only [readMore,hread,Option.isSome_none,Bool.false_or,decide_eq_true_eq,if_pos htake]
        rw [hfill]
        refine @fills_read ⟨size,buf,r,w,err,
          ⟨c :: reads,e⟩⟩ (c.take (size-w)) _ ⟨c.drop (size-w) :: reads,e⟩ hr hw
          (by rw [hlen]; simp only []; omega) ?_ ?_ (.inl ⟨rfl,htake⟩) ?_ ?_
        · simp [← List.append_assoc]
        · simpa only [steady,if_neg hdrop] using hsteady
        · intro n _ hle
          rw [hlen] at hle ⊢
          show min (size-w) (arrived (c :: reads) n) = size-w
          rw [arrived_within (by omega)]
          omega
        · rw [hlen]
          exact after_cut (by omega)

/-- A fill, wherever the held bytes lie. -/
lemma fills_fill (hb : Sound b) (hfree : b.held.length < b.size) :
    ∃ s, Slides b s ∧ Fills s b.fill := by
  have hslide := slides_slide hb.written
  refine ⟨b.slide,hslide,?_⟩
  refine fills_readMore maxConsecutiveEmptyReads 0 (Nat.zero_add _) hslide.r hslide.written ?_ ?_
    (by decide)
  · rw [hslide.w,hslide.size]
    exact hfree
  · rw [hslide.src]
    exact hb.steady

/-- What a slice is: a line, the end, or a bufferful of a line. -/
inductive Gives (b : Bufio) (delim : UInt8) (line : List UInt8) (b' : Bufio) :
    ℕ × ℕ → Option ReadErr → Prop
  | line {place : ℕ × ℕ} (line_eq : line = firstLine delim b.rest)
      (rest : b'.rest = otherLines delim b.rest)
      (ends : delim ∈ b.rest) : Gives b delim line b' place none
  | eof {place : ℕ × ℕ} (line_eq : line = b.rest) (rest : b'.rest = []) (endless : delim ∉ b.rest) :
      Gives b delim line b' place (some .eof)
  | full (endless : delim ∉ line) (length : line.length = b.size) (rest : b.rest = line ++ b'.rest)
      (none_held : b'.held = []) : Gives b delim line b' (0,b.size) (some .bufferFull)

/-- What a slice leaves. In a buffer that holds its bytes at its beginning, or none, all that was
read for it lies from the beginning on; and with a line that has to be read for, all has been read
that came with its end. -/
structure Slices (b : Bufio) (delim : UInt8) (place : ℕ × ℕ) (err : Option ReadErr)
    (b' : Bufio) : Prop where
  sound : Sound b'
  size : b'.size = b.size
  gives : Gives b delim (b'.view place) b' place err
  room : (b'.view place ++ b'.held).length ≤ b.size
  starts : b.held <+: b'.view place ++ b'.held
  after : After ((b'.view place ++ b'.held).length-b.held.length) b.src.reads b'.src.reads
  lays : b.r = 0 ∨ b.held = [] → b'.buf = overwrite b.buf 0 (b'.view place ++ b'.held)
  within : delim ∈ b'.view place → (b'.view place).length ≤ b.held.length →
    (b'.view place ++ b'.held).length = b.held.length
  ahead : delim ∈ b'.view place → b.held.length < (b'.view place).length →
    (b'.view place ++ b'.held).length =
    b.held.length+min (b.size-b.held.length) (arrived b.src.reads
      ((b'.view place).length-b.held.length))

/-- A slice that takes from what is held, up to a place of the buffer. -/
lemma view_append_held {past : ℕ} (hw : b.w ≤ b.buf.length) (hr : b.r ≤ past) (hpast : past ≤ b.w) :
    (b.buf.take past).drop b.r ++ (b.buf.take b.w).drop past = b.held := by
  have hsplit : b.buf.take b.w = b.buf.take past ++ (b.buf.take b.w).drop past := by
    conv_lhs => rw [← List.take_append_drop past (b.buf.take b.w)]
    rw [List.take_take,Nat.min_eq_left hpast]
  rw [held,view]
  conv_rhs => rw [hsplit]
  rw [List.drop_append_of_le_length]
  rw [List.length_take]
  omega

/-- Where nothing more is read for a slice, it and what is held after it are what was held. -/
lemma slices_held {place : ℕ × ℕ} {err : Option ReadErr} {b' : Bufio} (hb : Sound b)
    (hsound : Sound b')
    (hsize : b'.size = b.size) (hbuf : b'.buf = b.buf) (hsrc : b'.src = b.src)
    (hheld : b'.view place ++ b'.held = b.held)
    (hgives : Gives b delim (b'.view place) b' place err) :
    Slices b delim place err b' := by
  refine ⟨hsound,hsize,hgives,?_,?_,?_,?_,?_,?_⟩
  · have hfits := hb.fits
    rw [hheld,held_length hb.written]
    omega
  · rw [hheld]
  · rw [hheld,hsrc,Nat.sub_self]
    exact After.refl _
  · rw [hheld,hbuf]
    rintro (hr | hnil)
    · rw [held_of_r hr,overwrite_of_begins (List.take_prefix _ _)]
    · rw [hnil,overwrite_nil]
  · exact fun _ _ => congrArg List.length hheld
  · intro _ hlong
    rw [← hheld,List.length_append] at hlong
    omega

lemma slices_line (hb : Sound b) (hmem : delim ∈ b.held) :
    Slices b delim (b.r,b.r+b.held.idxOf delim+1) none { b with
      r := b.r+b.held.idxOf delim+1 } := by
  have hlen := held_length hb.written
  have hidx := List.idxOf_lt_length_iff.mpr hmem
  have horder := hb.order
  have hpast : b.r+b.held.idxOf delim+1 ≤ b.w := by omega
  have hview := view_append_held hb.written (show b.r ≤ b.r+b.held.idxOf delim+1 by omega) hpast
  obtain ⟨l,rest,hheld,hl⟩ := List.eq_append_cons_of_mem hmem
  have hplace : b.held.idxOf delim = l.length := by
    rw [hheld,List.idxOf_append_of_notMem hl,List.idxOf_cons_self,Nat.add_zero]
  have hline : (b.buf.take (b.r+b.held.idxOf delim+1)).drop b.r = l ++ [delim] := by
    have htake := congrArg (List.take (l.length+1)) hview
    have hlength : ((b.buf.take (b.r+b.held.idxOf delim+1)).drop b.r).length = l.length+1 := by
      rw [List.length_drop,List.length_take]
      have := hb.written
      omega
    rw [List.take_left' hlength] at htake
    rw [htake,hheld]
    simp [List.take_append]
  have hother : (b.buf.take b.w).drop (b.r+b.held.idxOf delim+1) = rest := by
    rw [hline] at hview
    have hboth := hview.trans hheld
    rw [List.append_assoc] at hboth
    simpa using hboth
  have hrest : b.rest = l ++ delim :: (rest ++ b.src.reads.flatten) := by
    rw [Bufio.rest,hheld]
    simp
  refine slices_held hb ⟨hb.room,hpast,hb.fits,hb.written,hb.steady,hb.ending⟩ rfl rfl rfl hview ?_
  refine .line ?_ ?_ ?_
  · rw [hrest,firstLine_line hl]
    exact hline
  · rw [hrest,otherLines_line hl]
    show (b.buf.take b.w).drop (b.r+b.held.idxOf delim+1) ++ b.src.reads.flatten = _
    rw [hother]
  · rw [hrest]
    simp

lemma view_all (hb : Sound b) : (b.buf.take b.w).drop b.r ++ (b.buf.take b.w).drop b.w = b.held :=
  view_append_held hb.written hb.order (le_refl _)

lemma held_given (b : Bufio) (err : Option ReadErr) :
    ({ b with r := b.w, err := err } : Bufio).held = [] := by
  show (b.buf.take b.w).drop b.w = []
  rw [List.drop_eq_nil_iff,List.length_take]
  exact Nat.min_le_left _ _

lemma slices_eof (hb : Sound b) (hmem : delim ∉ b.held) (heof : b.err = some .eof) :
    Slices b delim (b.r,b.w) (some .eof) { b with r := b.w, err := none } := by
  have hnil : b.src.reads = [] := by
    obtain hnone | h := hb.ending
    · rw [hnone] at heof
      cases heof
    · exact h.2
  have hrest : b.rest = b.held := by
    rw [Bufio.rest,hnil]
    simp
  refine slices_held hb ⟨hb.room,le_refl _,hb.fits,hb.written,hb.steady,
    .inl rfl⟩ rfl rfl rfl (view_all hb) ?_
  refine .eof hrest.symm ?_ (hrest ▸ hmem)
  rw [Bufio.rest,held_given]
  show [] ++ b.src.reads.flatten = []
  rw [hnil]
  rfl

lemma slices_full (hb : Sound b) (hmem : delim ∉ b.held) (hfull : b.size ≤ b.w-b.r) :
    Slices b delim (0,b.size) (some .bufferFull) { b with r := b.w } := by
  have hfits := hb.fits
  have hroom := hb.room
  have hr : b.r = 0 := by omega
  have hw : b.w = b.size := by omega
  have hlen := held_length hb.written
  have hview : view { b with r := b.w } (0,b.size) = b.held := by
    rw [held_of_r hr,← hw]
    rfl
  have hnone := held_given b b.err
  refine slices_held hb ⟨hb.room,le_refl _,hb.fits,hb.written,hb.steady,hb.ending⟩ rfl rfl rfl ?_ ?_
  · rw [hview]
    exact (congrArg (b.held ++ ·) hnone).trans (List.append_nil _)
  · rw [hview]
    refine .full hmem (by omega) ?_ hnone
    rw [Bufio.rest,Bufio.rest]
    congr 1
    exact (congrArg (· ++ b.src.reads.flatten) hnone).symm

/-- A slice that is read for after a fill is one of what was there before it. -/
lemma Slices.of_fill {s f b' : Bufio} {place : ℕ × ℕ} {err : Option ReadErr} (hslide : Slides b s)
    (hfill : Fills s f)
    (h : Slices f delim place err b') (hmem : delim ∉ b.held) : Slices b delim place err b' := by
  have hrest : f.rest = b.rest := by rw [hfill.rest,Bufio.rest,Bufio.rest,hslide.held,hslide.src]
  have hsize : f.size = b.size := hfill.size.trans hslide.size
  have hstarts : b.held <+: f.held := hslide.held ▸ hfill.starts
  have hgrows := hstarts.length_le
  have hmore := h.starts.length_le
  have hfits : f.held.length ≤ b.size := by
    rw [held_length hfill.written,hfill.r,Nat.sub_zero,← hslide.size]
    exact hfill.fits
  refine ⟨h.sound,h.size.trans hsize,?_,hsize ▸ h.room,hstarts.trans h.starts,?_,?_,?_,?_⟩
  · cases h.gives with
    | line line_eq rest ends => exact .line (hrest ▸ line_eq) (hrest ▸ rest) (hrest ▸ ends)
    | eof line_eq rest endless => exact .eof (hrest ▸ line_eq) rest (hrest ▸ endless)
    | full endless length rest none_held =>
      rw [hsize]
      rw [hsize] at endless length rest
      exact .full endless length (hrest ▸ rest) none_held
  · have hafter := hfill.after.trans h.after
    rw [hslide.src,hslide.held] at hafter
    rwa [show f.held.length-b.held.length+((b'.view place ++ b'.held).length-f.held.length) =
      (b'.view place ++ b'.held).length-b.held.length by omega] at hafter
  · intro hplace
    rw [h.lays (.inl hfill.r),hfill.buf,hslide.buf hplace,overwrite_overwrite hmore]
  · intro hline hshort
    have hpre : b'.view place <+: b.held :=
      List.prefix_of_prefix_length_le (List.prefix_append _ _) (hstarts.trans h.starts) hshort
    exact absurd (hpre.subset hline) hmem
  · intro hline hlong
    have hfillahead := hfill.ahead ((b'.view place).length-b.held.length)
    have hafter := hfill.after ((b'.view place).length-f.held.length)
    rw [hslide.held,hslide.src,hslide.size] at hfillahead
    rw [hslide.held,hslide.src] at hafter
    by_cases hwithin : (b'.view place).length ≤ f.held.length
    · rw [h.within hline hwithin]
      exact (hfillahead (by omega) (by omega)).symm
    · rw [h.ahead hline (by omega),hsize]
      have harrived := hafter (by omega)
      rw [show f.held.length-b.held.length+((b'.view place).length-f.held.length) =
        (b'.view place).length-b.held.length by omega] at harrived
      omega

lemma slices_slice (fills : ℕ) (hb : Sound b) (hfills : b.size < fills+b.held.length ∨ b.err ≠ none)
    (hpos : 0 < fills) :
    Slices b delim (slice delim fills b).1 (slice delim fills b).2.1 (slice delim fills b).2.2 := by
  induction fills generalizing b with
  | zero => omega
  | succ fills ih =>
    have hlen := held_length hb.written
    by_cases hmem : delim ∈ b.held
    · rw [slice,if_pos hmem]
      exact slices_line hb hmem
    · cases herr : b.err with
      | some e =>
        obtain rfl : e = .eof := by
          obtain hnone | ⟨heof,-⟩ := hb.ending
          · rw [hnone] at herr
            cases herr
          · exact Option.some.inj (herr.symm.trans heof)
        have hslice : slice delim (fills+1) b = ((b.r,b.w),some .eof,
          { b with r := b.w, err := none }) := by
          rw [slice,if_neg hmem,herr]
        rw [hslice]
        exact slices_eof hb hmem herr
      | none =>
        by_cases hfull : b.size ≤ b.w-b.r
        · have hslice : slice delim (fills+1) b = ((0,b.size),some .bufferFull,
            { b with r := b.w }) := by
            rw [slice,if_neg hmem,herr]
            simp only [if_pos hfull]
          rw [hslice]
          exact slices_full hb hmem hfull
        · have hslice : slice delim (fills+1) b = slice delim fills b.fill := by
            rw [slice,if_neg hmem,herr]
            simp only [if_neg hfull]
          obtain ⟨s,hslide,hfill⟩ := fills_fill hb (by omega)
          have hsize : b.fill.size = b.size := hfill.size.trans hslide.size
          have hsound : Sound b.fill := by
            refine ⟨hsize ▸ hb.room,?_,?_,hfill.written,hfill.steady,hfill.more.imp And.left id⟩
            · rw [hfill.r]
              exact Nat.zero_le _
            · rw [hfill.size]
              exact hfill.fits
          have hgrows := hfill.more
          rw [hslide.held] at hgrows
          have hleft : b.size < fills+1+b.held.length := hfills.resolve_right (fun h => h herr)
          rw [hslice]
          refine (ih hsound ?_ (by omega)).of_fill hslide hfill hmem
          exact hgrows.imp (fun h => by rw [hsize]; omega) (fun h => by rw [h.1]; simp)

/-- What ReadSlice gives: a line, the end, or a bufferful of a line. -/
theorem slices_readSlice (hb : Sound b) (delim : UInt8) :
    Slices b delim (b.readSlice delim).1 (b.readSlice delim).2.1 (b.readSlice delim).2.2 :=
  slices_slice (b.size+2) hb (.inl (by omega)) (by omega)

end Bufio
end Manvi.Encoding
