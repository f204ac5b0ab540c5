import Manvi.Transport.Reads

/-! The events of a stream do not depend on how its bytes arrive, as long as the reads make
progress. -/
namespace Manvi.Transport
open Manvi.Encoding

/-- The bytes that a reader of events has still to read as lines. -/
def SSE.stream (s : SSE) : Bytes := s.buffer ++ s.reader.remaining

/-- A reader of events whose body makes progress and which has met no error, so many whole windows
into a line. -/
structure Live (start : ℕ) (s : SSE) : Prop where
  whole : start%sseReaderSize = 0
  clean : Clean s.buffer
  fits : s.buffer.length ≤ sseReaderSize
  steady : s.reader.Steady 0 (column start s.buffer)
  pending : s.pending = none ∨ (s.pending = some .eof ∧ s.reader.src.reads = [])

lemma Live.pending_eof {start : ℕ} {s : SSE} {e : ReadError} (hs : Live start s)
    (h : s.pending = some e) :
    e = .eof := by
  rcases hs.pending with hnone | ⟨heof,_⟩
  · rw [hnone] at h
    cases h
  · rw [heof] at h
    exact (Option.some.inj h).symm

/-- A reader whose body has ended is as steady at the beginning of a line. -/
lemma steady_ended {r : PayloadReader} {n pos : ℕ} (h : r.src.reads = []) (hs : r.Steady n pos) :
    r.Steady 0 0 := by
  obtain ⟨⟨reads,e⟩,decided,skip⟩ := r
  obtain rfl : reads = [] := h
  cases decided with
  | true => exact steady_nil e 0 0 skip
  | false => exact ⟨rfl,hs.2.1,rfl⟩

lemma cutLF_some {b line rest : Bytes} (h : cutLF b = some (line,rest)) :
    ∃ l, line = l ++ [lf] ∧ b = l ++ lf :: rest ∧ lf ∉ l := by
  induction b generalizing line with
  | nil => cases h
  | cons c b ih =>
    rw [cutLF] at h
    split_ifs at h with hc
    · cases h
      exact ⟨[],by rw [hc]; rfl,by rw [hc]; rfl,by simp⟩
    · obtain ⟨⟨line',rest'⟩,hcut,heq⟩ := Option.map_eq_some_iff.mp h
      cases heq
      obtain ⟨l,rfl,rfl,hl⟩ := ih hcut
      refine ⟨c :: l,rfl,rfl,?_⟩
      simp only [List.mem_cons,not_or]
      exact ⟨fun he => hc he.symm,hl⟩

lemma cutLF_none {b : Bytes} (h : cutLF b = none) : lf ∉ b := by
  induction b with
  | nil => simp
  | cons c b ih =>
    rw [cutLF] at h
    split_ifs at h with hc
    simp only [List.mem_cons,not_or]
    exact ⟨fun he => hc he.symm,ih (Option.map_eq_none_iff.mp h)⟩

/-- Up to its LF a line is plain bytes, and possibly one CR. -/
lemma Clean.line {l rest : Bytes} (h : Clean (l ++ lf :: rest)) (hl : lf ∉ l) :
    ∃ t : Bytes, ∃ b : Bool, (∀ c ∈ t, c ≠ cr ∧ c ≠ lf) ∧ l = if b then t ++ [cr] else t := by
  induction l with
  | nil => exact ⟨[],false,by simp,rfl⟩
  | cons c l ih =>
    simp only [List.mem_cons,not_or] at hl
    obtain ⟨t,b,ht,hline⟩ := ih h.2 hl.2
    by_cases hc : c = cr
    · have hhead := h.1 hc
      have hnil : l = [] := by
        cases l with
        | nil => rfl
        | cons d l =>
          exfalso
          apply hl.2
          have : d = lf := by simpa using hhead
          rw [this]
          exact List.mem_cons_self
      exact ⟨[],true,by simp,by rw [hc,hnil]; rfl⟩
    · refine ⟨c :: t,b,?_,?_⟩
      · intro d hd
        rcases List.mem_cons.mp hd with rfl | hd
        · exact ⟨hc,fun he => hl.1 he.symm⟩
        · exact ht d hd
      · rw [hline]
        cases b <;> rfl

lemma Clean.of_append {a b : Bytes} (h : Clean (a ++ b)) : Clean b := by
  induction a with
  | nil => exact h
  | cons c a ih => exact ih h.2

lemma trimEnding_line {t : Bytes} (ht : ∀ c ∈ t, c ≠ cr ∧ c ≠ lf) (b : Bool) :
    trimEnding ((if b then t ++ [cr] else t) ++ [lf]) = t := by
  have hplain : t.reverse.dropWhile (fun c => c = cr || c = lf) = t.reverse := by
    cases hr : t.reverse with
    | nil => rfl
    | cons c r =>
      have hc := ht c (List.mem_reverse.mp (hr ▸ List.mem_cons_self))
      rw [List.dropWhile_cons_of_neg (by simp [hc.1,hc.2])]
  have hend : ∀ p : Bytes, ∀ c : UInt8, (c = cr || c = lf) = true →
      ((p ++ [c]).reverse.dropWhile (fun c => c = cr || c = lf)) = p.reverse.dropWhile (fun c =>
        c = cr || c = lf) := by
    intro p c hc
    rw [List.reverse_append,List.reverse_singleton,List.singleton_append]
    exact List.dropWhile_cons_of_pos hc
  unfold trimEnding
  rw [hend _ lf (by decide)]
  cases b with
  | true => rw [if_pos rfl,hend _ cr (by decide),hplain,List.reverse_reverse]
  | false => rw [if_neg (by decide),hplain,List.reverse_reverse]

lemma cutLines_line {t : Bytes} (ht : ∀ c ∈ t, c ≠ cr ∧ c ≠ lf) (b : Bool) (rest : Bytes) :
    cutLines [] ((if b then t ++ [cr] else t) ++ lf :: rest) =
      ((t,b) :: (cutLines [] rest).1,(cutLines [] rest).2) := by
  cases b with
  | true =>
    simp only [if_true,List.append_assoc,List.singleton_append]
    rw [cutLines_plain ht,List.nil_append,cutLines_cr_lf]
  | false =>
    simp only [Bool.false_eq_true,if_false]
    rw [cutLines_plain ht,List.nil_append,cutLines_lf]

/-- A line that is cut begins with what was read of it before. -/
lemma cutLines_starts (cur b : Bytes) :
    (∀ l ∈ (cutLines cur b).1.head?, cur <+: l.1) ∧
    ((cutLines cur b).1 = [] → cur <+: (cutLines cur b).2) := by
  induction cur,b using cutLines.induct with
  | case1 cur => exact ⟨by simp [cutLines],fun _ => List.prefix_refl _⟩
  | case2 cur => exact ⟨by simp [cutLines],by simp [cutLines]⟩
  | case3 cur rest ih =>
    rw [cutLines_cr_lf]
    exact ⟨by simp,by simp⟩
  | case4 cur d rest hd ih =>
    rw [cutLines_cr (by simpa using hd)]
    exact ⟨by simp,by simp⟩
  | case5 cur rest hne ih =>
    rw [cutLines_lf]
    exact ⟨by simp,by simp⟩
  | case6 cur c rest hr hl ih =>
    rw [cutLines_other hr hl]
    exact ⟨fun l hmem => (List.prefix_append _ _).trans (ih.1 l hmem),
      fun hnil => (List.prefix_append _ _).trans (ih.2 hnil)⟩

/-- What a slice gives: the next line of the stream from where a line stands, what is left at its
end, or a whole window of the line. -/
inductive SliceAs (cur : Bytes) (s : SSE) : Bytes × Option ReadError × SSE → Prop
  | line {chunk t : Bytes} {b : Bool} {lines : List Line × Bytes} {s' : SSE}
      (same : Same ((t,b) :: lines.1,lines.2) (cutLines cur s.stream))
      (rest : cutLines [] s'.stream = lines)
      (text : trimEnding (cur ++ chunk) = t) (length : cur.length+chunk.length = t.length+1+b.toNat)
      (window : chunk.length ≤ sseReaderSize ∧ 1+b.toNat ≤ chunk.length) (live : Live 0 s')
      (done : s'.done = s.done ∧ s'.err = s.err) (less : s'.fuel+chunk.length ≤ s.fuel) :
      SliceAs cur s (chunk,none,s')
  | finish {part : Bytes} {s' : SSE} (same : Same ([],cur ++ part) (cutLines cur s.stream))
      (plain : ∀ c ∈ part, c ≠ cr ∧ c ≠ lf) (live : Live 0 s') (empty : s'.stream = [])
      (done : s'.done = s.done ∧ s'.err = s.err) (less : s'.fuel ≤ s.fuel) :
      SliceAs cur s (part,some .eof,s')
  | full {chunk : Bytes} {s' : SSE}
      (same : Same (cutLines (cur ++ chunk) s'.stream) (cutLines cur s.stream))
      (plain : ∀ c ∈ chunk, c ≠ cr ∧ c ≠ lf) (length : chunk.length = sseReaderSize)
      (live : Live (cur ++ chunk).length s') (done : s'.done = s.done ∧ s'.err = s.err)
      (less : s'.fuel+chunk.length ≤ s.fuel) : SliceAs cur s (chunk,some .bufferFull,s')

/-- What a read of the body changes about the lines that are still to read. -/
structure Continues (cur : Bytes) (s1 s : SSE) : Prop where
  same : Same (cutLines cur s1.stream) (cutLines cur s.stream)
  done : s1.done = s.done ∧ s1.err = s.err
  less : s1.fuel ≤ s.fuel

lemma SliceAs.of_continues {cur : Bytes} {s s1 : SSE} {r : Bytes × Option ReadError × SSE}
    (h : SliceAs cur s1 r)
    (hs : Continues cur s1 s) : SliceAs cur s r := by
  obtain ⟨hsame,hdone,hless⟩ := hs
  cases h with
  | line same rest text length window live done less =>
    exact .line (same.trans hsame) rest text length window live ⟨done.1.trans hdone.1,
      done.2.trans hdone.2⟩
      (less.trans hless)
  | finish same plain live empty done less =>
    exact .finish (same.trans hsame) plain live empty ⟨done.1.trans hdone.1,
      done.2.trans hdone.2⟩ (less.trans hless)
  | full same plain length live done less =>
    exact .full (same.trans hsame) plain length live ⟨done.1.trans hdone.1,
      done.2.trans hdone.2⟩ (less.trans hless)

section slice
variable {cur : Bytes} {s : SSE}

lemma slice_buffered (hs : Live cur.length s) (hcur : ∀ c ∈ cur, c ≠ cr ∧ c ≠ lf)
    {line rest : Bytes}
    (hcut : cutLF s.buffer = some (line,rest)) :
    SliceAs cur s (line,none,{ s with buffer := rest }) := by
  obtain ⟨l,rfl,hbuffer,hl⟩ := cutLF_some hcut
  have hclean := hs.clean
  have hfits := hs.fits
  have hsteady := hs.steady
  rw [hbuffer] at hclean hfits hsteady
  obtain ⟨t,b,ht,hline⟩ := hclean.line hl
  have hplain : ∀ c ∈ cur ++ t, c ≠ cr ∧ c ≠ lf := by
    intro c hc
    exact (List.mem_append.mp hc).elim (hcur c) (ht c)
  have hwhole : cur ++ l = if b then (cur ++ t) ++ [cr] else cur ++ t := by
    rw [hline]
    cases b <;> simp
  have hstream : cur ++ s.stream = (if b then (cur ++ t) ++ [cr] else cur ++ t) ++
    lf :: (rest ++ s.reader.remaining) := by
    rw [SSE.stream,hbuffer,← hwhole]
    simp
  have hlines := cutLines_line hplain b (rest ++ s.reader.remaining)
  rw [← hstream,cutLines_plain hcur,List.nil_append] at hlines
  have hlen := congrArg List.length hline
  have hsize : (if b then t ++ [cr] else t).length = t.length+b.toNat := by cases b <;> simp
  rw [hsize] at hlen
  simp only [List.length_append,List.length_cons] at hfits
  refine .line (t := cur ++ t) (b := b) ?_ rfl ?_ ?_ ?_ ?_ ⟨rfl,rfl⟩ ?_
  · rw [hlines]
    exact Same.refl _
  · rw [← List.append_assoc,hwhole]
    exact trimEnding_line hplain b
  · simp only [List.length_append,List.length_singleton,hlen]
    omega
  · simp only [List.length_append,List.length_singleton,hlen]
    omega
  · refine ⟨Nat.zero_mod _,hclean.of_append.2,?_,?_,hs.pending⟩
    · dsimp only
      omega
    · rwa [column_lf] at hsteady
  · simp only [SSE.fuel,hbuffer,List.length_append,List.length_cons,List.length_nil]
    omega

lemma slice_end (hs : Live cur.length s) (hcut : cutLF s.buffer = none)
    (hend : s.pending = some .eof) :
    SliceAs cur s (s.buffer,some .eof,{ s with buffer := [], pending := none }) := by
  have hreads : s.reader.src.reads = [] := by
    rcases hs.pending with h | h
    · rw [h] at hend
      cases hend
    · exact h.2
  have hplain := hs.clean.plain (cutLF_none hcut)
  have hrem := remaining_of_nil hreads
  have hlive : Live 0 { s with buffer := [], pending := none } :=
    ⟨Nat.zero_mod _,trivial,Nat.zero_le _,steady_ended hreads hs.steady,.inl rfl⟩
  refine .finish ?_ hplain hlive ?_ ⟨rfl,rfl⟩ (by simp [SSE.fuel])
  · have hlines := cutLines_plain hplain cur []
    rw [SSE.stream,hrem,hlines]
    exact Same.refl _
  · rw [SSE.stream,hrem]
    rfl

lemma slice_full (hs : Live cur.length s) (hcut : cutLF s.buffer = none)
    (hfull : sseReaderSize ≤ s.buffer.length) :
    SliceAs cur s (s.buffer,some .bufferFull,{ s with buffer := [] }) := by
  have hplain := hs.clean.plain (cutLF_none hcut)
  have hlength := le_antisymm hs.fits hfull
  refine .full ?_ hplain hlength ⟨?_,trivial,Nat.zero_le _,?_,hs.pending⟩ ⟨rfl,rfl⟩ ?_
  · rw [SSE.stream,SSE.stream,cutLines_plain hplain]
    exact Same.refl _
  · rw [List.length_append,hlength,Nat.add_mod_right]
    exact hs.whole
  · have hsteady := hs.steady
    rw [column_of_not_mem (cutLF_none hcut)] at hsteady
    rw [List.length_append]
    exact hsteady
  · simp only [SSE.fuel,List.length_nil]
    omega

/-- A read that goes on with an unfinished line. -/
lemma slice_more {s1 : SSE} (hs : Live cur.length s) (hcut : cutLF s.buffer = none)
    (hfree : s.buffer.length < sseReaderSize)
    (hs1 : s1 = { s with
      reader := (s.reader.read (sseReaderSize-s.buffer.length)).2.2
      buffer := s.buffer ++ (s.reader.read (sseReaderSize-s.buffer.length)).1
      pending := (s.reader.read (sseReaderSize-s.buffer.length)).2.1 }) :
    Live cur.length s1 ∧ Continues cur s1 s ∧
    (s1.pending = none → s.buffer.length < s1.buffer.length) := by
  have hpos := column_of_not_mem (cutLF_none hcut) cur.length
  have hroom : room (column cur.length s.buffer) = sseReaderSize-s.buffer.length := by
    rw [hpos,room,Nat.add_mod,hs.whole,Nat.zero_add,Nat.mod_mod,Nat.mod_eq_of_lt hfree]
  have ha := read_arrives hs.steady
  rw [hroom] at ha
  subst hs1
  have hplain := hs.clean.plain (cutLF_none hcut)
  have hlines : ∀ rest, cutLines cur (s.buffer ++ rest) = cutLines (cur ++ s.buffer) rest :=
    cutLines_plain hplain cur
  refine ⟨⟨hs.whole,hs.clean.append ha.clean,?_,?_,ha.ending.imp_left And.left⟩,
    ⟨?_,⟨rfl,rfl⟩,?_⟩,?_⟩
  · have hfits := ha.fits
    rw [hroom] at hfits
    simp only [List.length_append]
    omega
  · rw [column_append]
    exact ha.steady
  · rw [SSE.stream,SSE.stream,List.append_assoc,hlines,hlines]
    exact ha.same _
  · have hb := ha.bound
    simp only [SSE.fuel,List.length_append]
    omega
  · intro hnone
    have hsome : (s.reader.read (sseReaderSize-s.buffer.length)).1 ≠ [] := by
      rcases ha.ending with h | h
      · exact h.2
      · have hpending : (s.reader.read (sseReaderSize-s.buffer.length)).2.1 = none := hnone
        rw [hpending] at h
        cases h.1
    have := List.length_pos_of_ne_nil hsome
    simp only [List.length_append]
    omega

lemma readSlice_reads {fuel : ℕ} (hs : Live cur.length s) (hcur : ∀ c ∈ cur, c ≠ cr ∧ c ≠ lf)
    (hf : s.pending = none → sseReaderSize < fuel+s.buffer.length) :
    SliceAs cur s (SSE.readSlice fuel s) := by
  induction fuel generalizing s with
  | zero =>
    rw [SSE.readSlice]
    cases hcut : cutLF s.buffer with
    | some cut => exact slice_buffered hs hcur hcut
    | none =>
      cases hpending : s.pending with
      | none =>
        have hfull := hf hpending
        simp only
        have hfulls := slice_full hs hcut (by omega)
        rw [hpending] at hfulls
        rw [if_pos (by omega)]
        exact hfulls
      | some e =>
        obtain rfl := hs.pending_eof hpending
        exact slice_end hs hcut hpending
  | succ fuel ih =>
    rw [SSE.readSlice]
    cases hcut : cutLF s.buffer with
    | some cut => exact slice_buffered hs hcur hcut
    | none =>
      cases hpending : s.pending with
      | none =>
        simp only
        by_cases hfull : sseReaderSize ≤ s.buffer.length
        · have hfulls := slice_full hs hcut hfull
          rw [hpending] at hfulls
          rw [if_pos hfull]
          exact hfulls
        · rw [if_neg hfull]
          obtain ⟨hlive,hcontinues,hmore⟩ := slice_more hs hcut (by omega) rfl
          have hreads : SliceAs cur _ (SSE.readSlice fuel _) := ih hlive (by
            intro hnone
            have h1 := hmore hnone
            have h2 := hf hpending
            omega)
          exact hreads.of_continues hcontinues
      | some e =>
        obtain rfl := hs.pending_eof hpending
        exact slice_end hs hcut hpending

end slice

/-! The events of whole lines. -/

def sentinel (done data : Bytes) : Bool := done ≠ [] && trimSpace data = done

/-- What an event gives that the end of the stream completes. -/
def lastEvent (done : Bytes) (event : Event) : List Event × ReadError :=
  if sentinel done event.data then ([],.eof) else ([event],.eof)

/-- The events of lines that are given whole, the last of them without an ending. -/
def lineEvents (done : Bytes) : Event → List Line → Bytes → List Event × ReadError
  | event,[],part =>
    if part.length > maxFrameBytes then ([],.oversizedFrame)
    else if part = [] ∨ part.head? = some colon then
      if event.data = [] then ([],.eof) else lastEvent done event
    else match readField event part with
      | .error e => ([],e)
      | .ok event => if event.data = [] ∧ event.name = [] then ([],.eof) else lastEvent done event
  | event,(t,_) :: lines,part =>
    if t.length+1 > maxFrameBytes then ([],.oversizedFrame)
    else if t = [] then
      if event.data = [] ∧ event.name = [] then lineEvents done event lines part
      else if sentinel done event.data then ([],.eof)
      else
        let rest := lineEvents done ⟨[],[]⟩ lines part
        (event :: rest.1,rest.2)
    else if t.head? = some colon then lineEvents done event lines part
    else match readField event t with
      | .error e => ([],e)
      | .ok event => lineEvents done event lines part

/-- The events of a stream, from its bytes alone. -/
def streamEvents (done b : Bytes) : List Event × ReadError :=
  let lines := cutLines [] (stripBOM b)
  lineEvents done ⟨[],[]⟩ lines.1 lines.2

/-- A reader of events that has these lines still to read. -/
structure Follows (s : SSE) (lines : List Line) (part : Bytes) : Prop where
  live : Live 0 s
  err : s.err = none
  same : Same (cutLines [] s.stream) (lines,part)

/-- A reader of events that has nothing more to give. -/
def Ended (s : SSE) : Prop := s.err = some .eof ∨ (s.err = none ∧ Live 0 s ∧ s.stream = [])

/-- What a call of readLine gives when these lines are left. -/
inductive LineAs (s : SSE) : List Line → Bytes → Bytes × Option ReadError × SSE → Prop
  | line {line t part : Bytes} {b : Bool} {lines : List Line} {s' : SSE}
      (fits : ¬ t.length+1 > maxFrameBytes)
      (follows : Follows s' lines part) (text : trimEnding line = t) (some : line ≠ [])
      (done : s'.done = s.done)
      (less : s'.fuel < s.fuel) : LineAs s ((t,b) :: lines) part (line,none,s')
  | oversized {t part : Bytes} {b : Bool} {lines : List Line} {s' : SSE}
      (long : t.length+1 > maxFrameBytes) :
      LineAs s ((t,b) :: lines) part ([],.some .oversizedFrame,s')
  | finish {part : Bytes} {s' : SSE} (fits : ¬ part.length > maxFrameBytes)
      (plain : ∀ c ∈ part, c ≠ cr ∧ c ≠ lf)
      (follows : Follows s' [] []) (empty : s'.stream = []) (done : s'.done = s.done)
      (less : s'.fuel ≤ s.fuel) :
      LineAs s [] part (part,.some .eof,s')
  | oversizedEnd {part : Bytes} {s' : SSE} (long : part.length > maxFrameBytes) :
      LineAs s [] part ([],.some .oversizedFrame,s')

/-- A reader with nothing left has no lines to read. -/
lemma follows_nil {s : SSE} (hlive : Live 0 s) (herr : s.err = none) (hempty : s.stream = []) :
    Follows s [] [] := by
  refine ⟨hlive,herr,?_⟩
  rw [hempty]
  exact Same.refl _

lemma LineAs.of_less {s s1 : SSE} {lines : List Line} {part : Bytes}
    {r : Bytes × Option ReadError × SSE}
    (h : LineAs s1 lines part r) (hdone : s1.done = s.done) (hless : s1.fuel ≤ s.fuel) :
    LineAs s lines part r := by
  cases h with
  | line fits follows text some done less =>
    exact .line fits follows text some (done.trans hdone) (less.trans_le hless)
  | oversized long => exact .oversized long
  | finish fits plain follows empty done less =>
    exact .finish fits plain follows empty (done.trans hdone) (less.trans hless)
  | oversizedEnd long => exact .oversizedEnd long

/-- A line of which too much was read is refused, whatever follows. -/
lemma lineAs_oversized {s s' : SSE} {cur b : Bytes} {lines : List Line} {part : Bytes}
    (hsame : Same (cutLines cur b) (lines,part)) (hlong : cur.length > maxFrameBytes) :
    LineAs s lines part ([],some .oversizedFrame,s') := by
  obtain ⟨hall,hpart⟩ := hsame
  obtain ⟨hfirst,hnone⟩ := cutLines_starts cur b
  cases lines with
  | nil =>
    have hpre := hnone (List.forall₂_nil_right_iff.mp hall)
    rw [hpart] at hpre
    exact .oversizedEnd (Nat.lt_of_lt_of_le hlong hpre.length_le)
  | cons l lines =>
    obtain ⟨l',lines',⟨htext,-⟩,-,hcut⟩ := List.forall₂_cons_right_iff.mp hall
    have hpre := hfirst l' (by rw [hcut]; rfl)
    rw [htext] at hpre
    have := hpre.length_le
    exact .oversized (by omega)

/-- A line's end counts once against the bound: a CR LF that would reach past it is cut by a
window. -/
lemma oversized_iff {start chunk n : ℕ} {b : Bool} (hwhole : start%sseReaderSize = 0)
    (hchunk : chunk ≤ sseReaderSize)
    (hends : 1+b.toNat ≤ chunk) (hlen : start+chunk = n+1+b.toNat) :
    start+chunk > maxFrameBytes ↔ n+1 > maxFrameBytes := by
  have hsize : sseReaderSize = 1048576 := rfl
  have hmax : maxFrameBytes = 33554432 := rfl
  rw [hsize] at hwhole hchunk
  rw [hmax]
  cases b with
  | false =>
    simp only [Bool.toNat_false] at hlen hends
    omega
  | true =>
    simp only [Bool.toNat_true] at hlen hends
    omega

lemma readLineFrom_spec {windows : ℕ} {cur : Bytes} {s : SSE} {lines : List Line} {part : Bytes}
    (hs : Live cur.length s) (herr : s.err = none) (hcur : ∀ c ∈ cur, c ≠ cr ∧ c ≠ lf)
    (hsame : Same (cutLines cur s.stream) (lines,part)) (hfits : cur.length ≤ maxFrameBytes)
    (hw : maxFrameBytes < cur.length+windows*sseReaderSize) :
    LineAs s lines part (SSE.readLineFrom windows cur s) := by
  induction windows generalizing cur s with
  | zero => omega
  | succ windows ih =>
    have hslice := @readSlice_reads cur s (sseReaderSize+2) hs hcur (fun _ => by omega)
    rw [SSE.readLineFrom]
    generalize SSE.readSlice (sseReaderSize+2) s = r at hslice
    cases hslice with
    | @line chunk t b rest s' same hrest text length window live done less =>
      obtain ⟨hall,hpart⟩ := same.trans hsame
      obtain ⟨⟨t',b'⟩,lines,⟨rfl,-⟩,hforall,rfl⟩ := List.forall₂_cons_left_iff.mp hall
      dsimp only at length hforall hpart ⊢
      have hiff := oversized_iff hs.whole window.1 window.2 length
      by_cases hlong : cur.length+chunk.length > maxFrameBytes
      · rw [if_pos hlong]
        exact .oversized (hiff.mp hlong)
      · rw [if_neg hlong,if_neg (by simp)]
        have hsome : 0 < chunk.length := by omega
        refine .line (fun h => hlong (hiff.mpr h)) ⟨live,done.2.trans herr,
          ?_⟩ text ?_ done.1 (by omega)
        · rw [hrest]
          exact ⟨hforall,hpart⟩
        · exact List.append_ne_nil_of_right_ne_nil _ (List.ne_nil_of_length_pos hsome)
    | @finish part' s' same plain live empty done less =>
      obtain ⟨hforall,hpart⟩ := same.trans hsame
      obtain rfl := List.forall₂_nil_left_iff.mp hforall
      obtain rfl : cur ++ part' = part := hpart
      dsimp only
      rw [← List.length_append]
      by_cases hlong : (cur ++ part').length > maxFrameBytes
      · rw [if_pos hlong]
        exact .oversizedEnd hlong
      · rw [if_neg hlong,if_neg (by simp)]
        refine .finish hlong ?_ (follows_nil live (done.2.trans herr) empty) empty done.1 less
        intro c hc
        exact (List.mem_append.mp hc).elim (hcur c) (plain c)
    | @full chunk s' same plain length live done less =>
      dsimp only
      rw [← List.length_append]
      by_cases hlong : (cur ++ chunk).length > maxFrameBytes
      · rw [if_pos hlong]
        exact lineAs_oversized (same.trans hsame) hlong
      · rw [if_neg hlong,if_pos rfl]
        have hplain : ∀ c ∈ cur ++ chunk, c ≠ cr ∧ c ≠ lf := by
          intro c hc
          exact (List.mem_append.mp hc).elim (hcur c) (plain c)
        have hmore : maxFrameBytes < (cur ++ chunk).length+windows*sseReaderSize := by
          rw [List.length_append,length]
          rw [Nat.succ_mul] at hw
          omega
        have hline := ih live (done.2.trans herr) hplain (same.trans hsame) (by omega) hmore
        exact hline.of_less done.1 (by omega)

lemma readLine_spec {s : SSE} {lines : List Line} {part : Bytes} (h : Follows s lines part) :
    LineAs s lines part s.readLine :=
  readLineFrom_spec h.live h.err (by simp) h.same (Nat.zero_le _) (by decide)

/-- What a call of Next gives after some fields of an event, when these lines are left. -/
inductive NextAs (s : SSE) (expected : List Event × ReadError) : Except ReadError Event × SSE → Prop
  | event {event : Event} {lines : List Line} {part : Bytes} {s' : SSE}
      (follows : Follows s' lines part)
      (done : s'.done = s.done) (less : s'.fuel < s.fuel)
      (rest : expected = (event :: (lineEvents s.done ⟨[],[]⟩ lines part).1,
        (lineEvents s.done ⟨[],[]⟩ lines part).2)) : NextAs s expected (.ok event,s')
  | last {event : Event} {s' : SSE} (ended : Ended s') (rest : expected = ([event],.eof)) :
      NextAs s expected (.ok event,s')
  | stop {e : ReadError} {s' : SSE} (rest : expected = ([],e)) : NextAs s expected (.error e,s')

lemma NextAs.of_less {s s1 : SSE} {expected : List Event × ReadError}
    {r : Except ReadError Event × SSE}
    (h : NextAs s1 expected r) (hdone : s1.done = s.done) (hless : s1.fuel ≤ s.fuel) :
    NextAs s expected r := by
  cases h with
  | event follows done less rest =>
    rw [hdone] at done rest
    exact .event follows done (less.trans_le hless) rest
  | last ended rest => exact .last ended rest
  | stop rest => exact .stop rest

/-- The event that the end completes. -/
lemma dispatch_last {s s' : SSE} {event : Event} (hs : Ended s') (hdone : s'.done = s.done) :
    NextAs s (lastEvent s.done event) (s'.dispatch event) := by
  have hsame : s'.isDone event.data = sentinel s.done event.data := by
    rw [SSE.isDone,sentinel,hdone]
  rw [SSE.dispatch,hsame,lastEvent]
  by_cases hsent : sentinel s.done event.data = true
  · rw [if_pos hsent,if_pos hsent]
    exact .stop rfl
  · rw [if_neg hsent,if_neg hsent]
    exact .last hs rfl

lemma trimEnding_plain {t : Bytes} (ht : ∀ c ∈ t, c ≠ cr ∧ c ≠ lf) : trimEnding t = t := by
  have h := trimEnding_line ht false
  unfold trimEnding at h ⊢
  rw [if_neg (by decide),List.reverse_append,List.reverse_singleton,List.singleton_append] at h
  rw [List.dropWhile_cons_of_pos (by decide)] at h
  exact h

/-- The end of a stream, with nothing left over. -/
lemma nextFrom_blank {fuel : ℕ} {s s' : SSE} {event : Event} (hr : s.readLine = ([],some .eof,s'))
    (hs : Ended s') (done : s'.done = s.done) :
    NextAs s (if event.data = [] then
      ([],.eof) else lastEvent s.done event) (nextFrom (fuel+1) s event) := by
  have hnext : nextFrom (fuel+1) s event = if event.data = [] then s'.settle .eof
    else s'.dispatch event := by
    rw [nextFrom,hr]
    by_cases hdata : event.data = [] <;> simp [hdata]
  rw [hnext]
  by_cases hdata : event.data = []
  · rw [if_pos hdata,if_pos hdata]
    exact .stop rfl
  · rw [if_neg hdata,if_neg hdata]
    exact dispatch_last hs done

lemma nextFrom_end (fuel : ℕ) {s : SSE} (event : Event) (h : Follows s [] []) :
    NextAs s (if event.data = [] then
      ([],.eof) else lastEvent s.done event) (nextFrom (fuel+1) s event) := by
  have hline := readLine_spec h
  generalize hr : s.readLine = r at hline
  cases hline with
  | oversizedEnd long => simp at long
  | finish _ _ follows empty done =>
    exact nextFrom_blank hr (.inr ⟨follows.err,follows.live,empty⟩) done

/-- The last line of a stream, without an ending. -/
lemma nextFrom_finish {fuel : ℕ} {s s' : SSE} {event : Event} {part : Bytes}
    (hr : s.readLine = (part,some .eof,s')) (fits : ¬ part.length > maxFrameBytes)
    (plain : ∀ c ∈ part, c ≠ cr ∧ c ≠ lf) (follows : Follows s' [] []) (empty : s'.stream = [])
    (done : s'.done = s.done) (hf : 0 < fuel) (hless : s'.fuel ≤ s.fuel) :
    NextAs s (lineEvents s.done event [] part) (nextFrom (fuel+1) s event) := by
  rw [lineEvents,if_neg fits]
  by_cases hnone : part = []
  · rw [if_pos (.inl hnone)]
    rw [hnone] at hr
    exact nextFrom_blank hr (.inr ⟨follows.err,follows.live,empty⟩) done
  by_cases hcomment : part.head? = some colon
  · have hnext : nextFrom (fuel+1) s event = nextFrom fuel s' event := by
      rw [nextFrom,hr]
      simp [hnone,hcomment,trimEnding_plain plain]
    obtain ⟨k,rfl⟩ : ∃ k, fuel = k+1 := ⟨fuel-1,by omega⟩
    rw [if_pos (.inr hcomment),hnext,← done]
    exact (nextFrom_end k event follows).of_less done hless
  · have hnext : nextFrom (fuel+1) s event = match readField event part with
        | .error e => s'.settle e
        | .ok event => if event.data = [] ∧ event.name = [] then s'.settle .eof
          else { s' with err := some .eof }.dispatch event := by
      rw [nextFrom,hr]
      dsimp only
      rw [if_neg (fun hc => hnone hc.1),trimEnding_plain plain,if_neg hnone,if_neg hcomment]
      cases readField event part with
      | error e => rfl
      | ok event =>
        by_cases hev : event.data = [] ∧ event.name = []
        · simp [hev]
        · dsimp only
          rw [if_pos ⟨rfl,by tauto⟩,if_neg hev]
    rw [if_neg (by tauto),hnext]
    cases readField event part with
    | error e => exact .stop rfl
    | ok event =>
      dsimp only
      by_cases hev : event.data = [] ∧ event.name = []
      · rw [if_pos hev,if_pos hev]
        exact .stop rfl
      · rw [if_neg hev,if_neg hev]
        exact dispatch_last (.inl rfl) done

lemma nextFrom_spec {fuel : ℕ} {s : SSE} {event : Event} {lines : List Line} {part : Bytes}
    (h : Follows s lines part) (hf : s.fuel ≤ fuel) :
    NextAs s (lineEvents s.done event lines part) (nextFrom fuel s event) := by
  induction fuel generalizing s event lines with
  | zero =>
    exact absurd hf (by simp [SSE.fuel])
  | succ fuel ih =>
    have hline := readLine_spec h
    generalize hr : s.readLine = r at hline
    cases hline with
    | oversized long =>
      rw [nextFrom,hr]
      dsimp only
      rw [if_pos ⟨rfl,by simp⟩,if_neg (by simp),lineEvents,if_pos long]
      exact .stop rfl
    | oversizedEnd long =>
      rw [nextFrom,hr]
      dsimp only
      rw [if_pos ⟨rfl,by simp⟩,if_neg (by simp),lineEvents,if_pos long]
      exact .stop rfl
    | @line line t _ b lines s' fits follows text some done less =>
      rw [nextFrom,hr]
      dsimp only
      rw [if_neg (fun hc => some hc.1),text,lineEvents,if_neg fits]
      dsimp only
      have hnext : ∀ event, NextAs s (lineEvents s.done event lines part)
        (nextFrom fuel s' event) := by
        intro event
        have hstep : NextAs s' (lineEvents s'.done event lines part) (nextFrom fuel s' event) :=
          ih follows (by omega)
        rw [done] at hstep
        exact hstep.of_less done less.le
      by_cases hblank : t = []
      · rw [if_pos hblank,if_pos hblank]
        by_cases hnone : event.data = [] ∧ event.name = []
        · rw [if_pos hnone,if_pos hnone]
          exact hnext event
        · rw [if_neg hnone,if_neg hnone,SSE.dispatch,SSE.isDone,done]
          change NextAs s (if sentinel s.done event.data then
            _ else _) (if sentinel s.done event.data then _ else _)
          by_cases hsent : sentinel s.done event.data = true
          · rw [if_pos hsent,if_pos hsent]
            exact .stop rfl
          · rw [if_neg hsent,if_neg hsent]
            exact .event follows done less rfl
      · rw [if_neg hblank,if_neg hblank]
        by_cases hcomment : t.head? = .some colon
        · rw [if_pos hcomment,if_pos hcomment]
          exact hnext event
        · rw [if_neg hcomment,if_neg hcomment]
          cases readField event t with
          | error e => exact .stop rfl
          | ok event => exact hnext event
    | @finish _ s' fits plain follows empty done less =>
      have hpos : 2 ≤ s.fuel := by simp [SSE.fuel]
      exact nextFrom_finish hr fits plain follows empty done (by omega) less

lemma next_ended {s : SSE} (h : Ended s) : s.next.1 = .error .eof := by
  rcases h with herr | ⟨herr,hlive,hempty⟩
  · rw [SSE.next,herr]
  · have hfollows := follows_nil hlive herr hempty
    have hnext : NextAs s ([],.eof) s.next := by
      rw [SSE.next,herr]
      exact nextFrom_end _ ⟨[],[]⟩ hfollows
    generalize s.next = r at hnext
    cases hnext with
    | event _ _ _ rest => cases rest
    | last _ rest => cases rest
    | stop rest =>
      cases rest
      rfl

lemma eventsFrom_spec {fuel : ℕ} {s : SSE} {lines : List Line} {part : Bytes}
    (h : Follows s lines part)
    (hf : s.fuel ≤ fuel) : eventsFrom fuel s = lineEvents s.done ⟨[],[]⟩ lines part := by
  induction fuel generalizing s lines part with
  | zero => exact absurd hf (by simp [SSE.fuel])
  | succ fuel ih =>
    have hnext : NextAs s (lineEvents s.done ⟨[],[]⟩ lines part) s.next := by
      rw [SSE.next,h.err]
      exact nextFrom_spec h le_rfl
    rw [eventsFrom]
    generalize s.next = r at hnext
    cases hnext with
    | event follows done less rest =>
      have hrest := ih follows (by omega)
      dsimp only
      rw [hrest,done,rest]
    | @last event s' ended rest =>
      obtain ⟨k,rfl⟩ : ∃ k, fuel = k+1 := by
        have hpos : 2 ≤ s.fuel := by simp [SSE.fuel]
        exact ⟨fuel-1,by omega⟩
      have hended : eventsFrom (k+1) s' = ([],.eof) := by
        have hn := next_ended ended
        rw [eventsFrom]
        generalize s'.next = r at hn
        obtain ⟨r,s'⟩ := r
        cases hn
        rfl
      dsimp only
      rw [hended,rest]
    | stop rest => exact rest.symm

/-- The events of a stream are those of its bytes, if fewer than a hundred reads in a row pass
nothing on. -/
lemma events_eq_streamEvents {reads : List Bytes} {e : Bool} (done : Bytes)
    (hsteady : steadyStart e 0 0 [] reads = true) :
    (newSSE ⟨reads,e⟩ done).events = streamEvents done reads.flatten := by
  have hlive : Live 0 (newSSE ⟨reads,e⟩ done) :=
    ⟨Nat.zero_mod _,trivial,Nat.zero_le _,⟨rfl,rfl,hsteady⟩,.inl rfl⟩
  have hfollows : Follows (newSSE ⟨reads,e⟩ done) (cutLines [] (stripBOM reads.flatten)).1
      (cutLines [] (stripBOM reads.flatten)).2 := ⟨hlive,rfl,Same.refl _⟩
  exact eventsFrom_spec hfollows le_rfl

/-- One read makes progress however often it is taken: of two takes in a row one passes something
on. -/
lemma steady_single (e : Bool) (r : Bytes) (n pos : ℕ) (skip : Bool)
    (h : n+1+skip.toNat < maxEmptyReads) :
    steady e n pos skip [r] = true := by
  induction hlen : r.length using Nat.strong_induction_on generalizing r n pos skip with
  | _ len ih =>
    have hroom := room_pos pos
    rw [steady_some e n pos skip (by simp),takeRead]
    by_cases hfits : r.length ≤ room pos
    · rw [if_pos hfits]
      dsimp only
      rw [steady_nil,steady_nil,Bool.and_true,decide_eq_true (by omega),ite_self,ite_self]
    · rw [if_neg hfits]
      dsimp only
      have hshort : (r.drop (room pos)).length < len := by
        rw [List.length_drop]
        omega
      have hnext : ∀ n' pos' skip', n'+1+Bool.toNat skip' < maxEmptyReads →
          steady e n' pos' skip' [r.drop (room pos)] = true :=
        fun n' pos' skip' h' => ih _ hshort _ n' pos' skip' h' rfl
      have hsome : r.take (room pos) ≠ [] := by
        apply List.ne_nil_of_length_pos
        rw [List.length_take]
        omega
      split_ifs with hlast hidle
      · rfl
      · -- only the LF of a cut ending is idle, and then no ending is cut
        obtain ⟨rfl,hlf⟩ : skip = true ∧ r.take (room pos) = [lf] := by simpa [idle,
          hsome] using hidle
        have hflag : (endLines true [lf]).2 = false := by decide
        rw [hlf,hflag,hnext _ _ _ (by simpa using h),Bool.and_true,decide_eq_true_eq]
        simp only [Bool.toNat_true] at h
        omega
      · refine hnext _ _ _ ?_
        have := Bool.toNat_le (endLines skip (r.take (room pos))).2
        have hmax : maxEmptyReads = 100 := rfl
        omega

@[simp] lemma steadyStart_single (e : Bool) (b : Bytes) : steadyStart e 0 0 [] [b] = true := by
  have hafter : ∀ q reads, reads = [] ∨ (∃ r, reads = [r]) → afterMark e 0 q reads = true := by
    intro q reads hreads
    have hsteady : ∀ n pos skip, n < 2 → steady e n pos skip reads = true := by
      intro n pos skip hn
      obtain rfl | ⟨r,rfl⟩ := hreads
      · exact steady_nil e n pos skip
      · have := Bool.toNat_le skip
        have hmax : maxEmptyReads = 100 := rfl
        exact steady_single e r n pos skip (by omega)
    rw [afterMark,hsteady _ _ _ (by decide),hsteady _ _ _ (by decide)]
    split_ifs <;> rfl
  rw [steadyStart]
  split_ifs
  · exact hafter _ _ (.inr ⟨_,rfl⟩)
  · rfl
  · rfl
  · contradiction
  · rfl
  · exact hafter _ _ (.inl rfl)

/-- A stream that arrives in one read. -/
lemma events_whole (b done : Bytes) : (newSSE ⟨[b],false⟩ done).events = streamEvents done b := by
  have h := events_eq_streamEvents done (steadyStart_single false b)
  rwa [List.flatten_singleton] at h

end Manvi.Transport
