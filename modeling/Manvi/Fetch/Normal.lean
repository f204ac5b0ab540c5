import Manvi.Fetch.Collapse

/-! When a collapsed text is a normal form: collapsing it again, or another spelling of its line
ends, changes nothing. -/
namespace Manvi.Fetch
open Manvi.Encoding.Runes

/-- The runs of white space in a text: what replacement characters divide. -/
def runs (g : List Char) : List (List Char) :=
  (g.splitOn replacement).filter (fun run => !run.isEmpty)

/-- The line ends of a run of white space. -/
def lineEnds (run : List Char) : List Char := run.filter lineEnd

/-- What is written for one run of white space. -/
def written (run : List Char) : List Char := separator (lineEnds run).length run.length

/-- Every line feed written as a carriage return and a line feed. -/
def toCrlf (s : List Char) : List Char := s.flatMap (fun r => if r = '\n' then ['\r','\n'] else [r])

/-- Every line feed written as a carriage return. -/
def toCr (s : List Char) : List Char := s.map (fun r => if r = '\n' then '\r' else r)

/-- What a normal form of white space is. -/
structure NormalForm (s : List Char) : Prop where
  again : collapse (collapse s) = collapse s
  first : ∀ c, (collapse s).head? = some c → isSpace c = false
  last : ∀ c, (collapse s).getLast? = some c → isSpace c = false
  spaces : ¬ [' ',' '] <:+: collapse s
  newlines : ¬ ['\n','\n','\n'] <:+: collapse s
  content : (collapse s).filter (fun r => !isSpace r) = s.filter (fun r =>
    !isSpace r && r ≠ replacement)
  crlf : collapse (toCrlf s) = collapse s
  cr : collapse (toCr s) = collapse s

/-- One run at most, or two of one line end each. -/
def Settled (ls : List (List Char)) : Prop :=
  ls.length ≤ 1 ∨ (ls.length = 2 ∧ ∀ run ∈ ls, (lineEnds run).length = 1)

/-- No run of white space between two characters has a line feed as its only line end, and the runs
are settled. -/
def Plain (g : List Char) : Prop := (∀ run ∈ runs g, lineEnds run ≠ ['\n']) ∧ Settled (runs g)

section runs
variable {g run w : List Char}

@[simp] lemma written_nil : written [] = [] := rfl

lemma separator_many {newlines spaces : ℕ} (h : 2 ≤ newlines) :
    separator newlines spaces = ['\n','\n'] := by
  rw [separator,if_pos h]

lemma separator_one (spaces : ℕ) : separator 1 spaces = ['\n'] := by
  rw [separator,if_neg (by omega),if_pos rfl]

lemma separator_none {spaces : ℕ} (h : 0 < spaces) : separator 0 spaces = [' '] := by
  rw [separator,if_neg (by omega),if_neg (by omega),if_pos h]

lemma written_cases (h : run ≠ []) : ((lineEnds run).length = 0 ∧ written run = [' '])
    ∨ ((lineEnds run).length = 1 ∧ written run = ['\n']) ∨
    (2 ≤ (lineEnds run).length ∧ written run = ['\n','\n']) := by
  obtain h0 | h1 | h2 : (lineEnds run).length = 0 ∨ (lineEnds run).length = 1 ∨
    2 ≤ (lineEnds run).length := by omega
  · refine Or.inl ⟨h0,?_⟩
    rw [written,h0,separator_none (List.length_pos_iff.mpr h)]
  · refine Or.inr (Or.inl ⟨h1,?_⟩)
    rw [written,h1,separator_one]
  · exact Or.inr (Or.inr ⟨h2,separator_many h2⟩)

@[simp] lemma lineEnds_append (u v : List Char) : lineEnds (u ++ v) = lineEnds u ++ lineEnds v :=
    List.filter_append ..

lemma space_not_replacement {r : Char} (h : isSpace r = true) : r ≠ replacement := by
  rintro rfl
  rw [replacement_not_space] at h
  cases h

lemma splitOn_spaces {u : List Char} (hu : ∀ c ∈ u, isSpace c = true) :
    u.splitOn replacement = [u] := by
  rw [List.splitOn_eq_splitOnP]
  refine List.splitOnP_eq_singleton (fun c hc => ?_)
  simpa using space_not_replacement (hu c hc)

lemma splitOn_spaces_replacement {u : List Char} (hu : ∀ c ∈ u, isSpace c = true) (v : List Char) :
    (u ++ replacement :: v).splitOn replacement = u :: v.splitOn replacement := by
  rw [List.splitOn_eq_splitOnP,List.splitOn_eq_splitOnP]
  refine List.splitOnP_append_cons_of_forall_mem (fun c hc => ?_) _ (by simp) _
  simpa using space_not_replacement (hu c hc)

lemma forall_concat {u : List Char} {r : Char} (hu : ∀ c ∈ u, isSpace c = true)
    (hr : isSpace r = true) : ∀ c ∈ u ++ [r], isSpace c = true := by
  intro c hc
  obtain hc | hc := List.mem_append.mp hc
  · exact hu c hc
  · rwa [List.mem_singleton.mp hc]

lemma separator_written {u : List Char} {newlines spaces : ℕ} (hn : newlines = (lineEnds u).length)
    (hs : newlines = 0 → spaces = u.length) :
    separator newlines spaces = written u := by
  rw [written,← hn]
  obtain h0 | h1 | h2 : newlines = 0 ∨ newlines = 1 ∨ 2 ≤ newlines := by omega
  · rw [hs h0]
  · rw [h1,separator_one,separator_one]
  · rw [separator_many h2,separator_many h2]

/-- The counters hold what the run in hand needs. -/
lemma gapFrom_runs {u : List Char} {newlines spaces : ℕ} (hg : ∀ c ∈ g, junk c = true)
    (hu : ∀ c ∈ u, isSpace c = true)
    (hn : newlines = (lineEnds u).length) (hs : newlines = 0 → spaces = u.length) :
    gapFrom g newlines spaces = (((u ++ g).splitOn replacement).map written).flatten := by
  induction g generalizing u newlines spaces with
  | nil =>
    rw [List.append_nil,splitOn_spaces hu,gapFrom]
    simp only [List.map_cons,List.map_nil,List.flatten_cons,List.flatten_nil,List.append_nil]
    exact separator_written hn hs
  | cons r g ih =>
    have hg' : ∀ c ∈ g, junk c = true := fun c hc => hg c (List.mem_cons_of_mem _ hc)
    have hsnoc : u ++ r :: g = u ++ [r] ++ g := by simp
    rw [gapFrom]
    by_cases hline : lineEnd r = true
    · rw [if_pos hline,hsnoc]
      refine ih hg' (forall_concat hu (lineEnd_space hline)) ?_ (fun h0 => absurd h0 (by omega))
      rw [lineEnds_append,List.length_append,hn]
      simp [lineEnds,hline]
    rw [if_neg hline]
    by_cases hspace : isSpace r = true
    · rw [if_pos hspace,hsnoc]
      refine ih hg' (forall_concat hu hspace) ?_ (fun h0 => ?_)
      · rw [lineEnds_append,List.length_append,hn]
        simp [lineEnds,hline]
      · rw [hs h0,List.length_append,List.length_singleton]
    · have hrep : r = replacement := by simpa [junk,hspace] using hg r List.mem_cons_self
      rw [if_neg hspace,hrep,splitOn_spaces_replacement hu,List.map_cons,List.flatten_cons]
      have hrest := @ih [] 0 0 hg' (fun c hc => (by cases hc)) rfl (fun _ => rfl)
      rw [hrest,List.nil_append,separator_written hn hs]

lemma flatten_written_filter (ls : List (List Char)) :
    ((ls.filter (fun run => !run.isEmpty)).map written).flatten = (ls.map written).flatten := by
  induction ls with
  | nil => rfl
  | cons l ls ih => cases l with
    | nil => simpa [written_nil] using ih
    | cons c l => simp [ih]

/-- Between two characters stands what is written for each run of white space there. -/
lemma gap_runs (hg : ∀ c ∈ g, junk c = true) : gap g = ((runs g).map written).flatten := by
  rw [runs,flatten_written_filter,gap]
  exact @gapFrom_runs g [] 0 0 hg (fun c hc => (by cases hc)) rfl (fun _ => rfl)

lemma gap_spaces (hw : ∀ c ∈ w, isSpace c = true) : gap w = written w := by
  have hjunk : ∀ c ∈ w, junk c = true := fun c hc => by simp [junk,hw c hc]
  have hrun := @gapFrom_runs w [] 0 0 hjunk (fun c hc => (by cases hc)) rfl (fun _ => rfl)
  rw [gap,hrun,List.nil_append,splitOn_spaces hw]
  simp

lemma runs_ne_nil (h : run ∈ runs g) : run ≠ [] := by
  have hmem := (List.mem_filter.mp h).2
  rintro rfl
  cases hmem

lemma written_one_iff (h : run ≠ []) : written run = ['\n'] ↔ (lineEnds run).length = 1 := by
  obtain ⟨hn,hw⟩ | ⟨hn,hw⟩ | ⟨hn,hw⟩ := written_cases h
  · rw [hw,hn]
    decide
  · rw [hw,hn]
    decide
  · rw [hw]
    refine ⟨fun heq => absurd heq (by decide),fun heq => absurd heq (by omega)⟩

/-- What is written for one run is written again as it is. -/
lemma written_written (h : run ≠ []) : written (written run) = written run := by
  obtain ⟨-,hw⟩ | ⟨-,hw⟩ | ⟨-,hw⟩ := written_cases h
  · rw [hw]
    decide
  · rw [hw]
    decide
  · rw [hw]
    decide

lemma written_pair_iff {a b : List Char} (ha : a ≠ []) (hb : b ≠ []) :
    written (written a ++ written b) = written a ++ written b
    ↔ written a = ['\n'] ∧ written b = ['\n'] := by
  obtain ⟨-,hw⟩ | ⟨-,hw⟩ | ⟨-,hw⟩ := written_cases ha
  all_goals
    obtain ⟨-,hv⟩ | ⟨-,hv⟩ | ⟨-,hv⟩ := written_cases hb
    all_goals
      rw [hw,hv]
      decide

lemma length_written_le (run : List Char) : (written run).length ≤ 2 := by
  by_cases h : run = []
  · rw [h]
    decide
  · obtain ⟨-,hw⟩ | ⟨-,hw⟩ | ⟨-,hw⟩ := written_cases h
    · rw [hw]
      decide
    · rw [hw]
      decide
    · rw [hw]
      decide

lemma length_written_pos (h : run ≠ []) : 1 ≤ (written run).length := by
  obtain ⟨-,hw⟩ | ⟨-,hw⟩ | ⟨-,hw⟩ := written_cases h
  · rw [hw]
    decide
  · rw [hw]
    decide
  · rw [hw]
    decide

lemma written_flatten_iff {ls : List (List Char)} (hls : ∀ run ∈ ls, run ≠ []) :
    written ((ls.map written).flatten) = (ls.map written).flatten ↔ Settled ls := by
  match ls,hls with
  | [],_ => exact ⟨fun _ => Or.inl (by simp),fun _ => rfl⟩
  | [a],hls =>
    have ha : a ≠ [] := hls a List.mem_cons_self
    refine ⟨fun _ => Or.inl (by simp),fun _ => ?_⟩
    simpa using written_written ha
  | [a,b],hls =>
    have ha : a ≠ [] := hls a List.mem_cons_self
    have hb : b ≠ [] := hls b (by simp)
    have hpair := written_pair_iff ha hb
    rw [written_one_iff ha,written_one_iff hb] at hpair
    simpa [Settled] using hpair
  | a :: b :: c :: ls,hls =>
    have ha := length_written_pos (hls a List.mem_cons_self)
    have hb := length_written_pos (hls b (by simp))
    have hc := length_written_pos (hls c (by simp))
    have hle := length_written_le (((a :: b :: c :: ls).map written).flatten)
    have hlong : 3 ≤ (((a :: b :: c :: ls).map written).flatten).length := by
      simp only [List.map_cons,List.flatten_cons,List.length_append]
      omega
    constructor
    · intro heq
      rw [heq] at hle
      omega
    · rintro (hone | ⟨htwo,-⟩)
      · simp at hone
      · simp at htwo

/-- What is written between two characters is written again as it is exactly if it comes from one
run, or from two of one line end each. -/
lemma gap_gap_iff (hg : ∀ c ∈ g, junk c = true) : gap (gap g) = gap g ↔ Settled (runs g) := by
  rw [gap_spaces (gap_space g),gap_runs hg]
  exact written_flatten_iff (fun run hrun => runs_ne_nil hrun)

lemma gap_forms (h : gap (gap g) = gap g) :
    gap g = [] ∨ gap g = [' '] ∨ gap g = ['\n'] ∨ gap g = ['\n','\n'] := by
  rw [gap_spaces (gap_space g)] at h
  by_cases hnil : gap g = []
  · exact Or.inl hnil
  · obtain ⟨-,hw⟩ | ⟨-,hw⟩ | ⟨-,hw⟩ := written_cases hnil
    · exact Or.inr (Or.inl (h ▸ hw))
    · exact Or.inr (Or.inr (Or.inl (h ▸ hw)))
    · exact Or.inr (Or.inr (Or.inr (h ▸ hw)))

end runs

section spellings
variable {g run s : List Char}

@[simp] lemma toCrlf_cons (r : Char) (s : List Char) :
    toCrlf (r :: s) = (if r = '\n' then ['\r','\n'] else [r]) ++ toCrlf s := List.flatMap_cons ..

lemma toCrlf_feed (s : List Char) : toCrlf ('\n' :: s) = '\r' :: '\n' :: toCrlf s :=
    toCrlf_cons '\n' s

lemma toCrlf_other {r : Char} (h : r ≠ '\n') (s : List Char) : toCrlf (r :: s) = r :: toCrlf s := by
  rw [toCrlf_cons,if_neg h,List.singleton_append]

lemma toCrlf_isEmpty (s : List Char) : (toCrlf s).isEmpty = s.isEmpty := by
  cases s with
  | nil => rfl
  | cons r s =>
    by_cases h : r = '\n'
    · rw [h,toCrlf_feed]
      rfl
    · rw [toCrlf_other h]
      rfl

lemma lineEnds_toCrlf (run : List Char) : lineEnds (toCrlf run) = toCrlf (lineEnds run) := by
  induction run with
  | nil => rfl
  | cons r run ih =>
    by_cases h : r = '\n'
    · have hfeed : lineEnds ('\n' :: run) = '\n' :: lineEnds run :=
        List.filter_cons_of_pos (by decide)
      rw [h,toCrlf_feed,hfeed,toCrlf_feed,← ih]
      rfl
    · rw [toCrlf_other h]
      by_cases hline : lineEnd r = true
      · rw [lineEnds,List.filter_cons_of_pos hline,lineEnds,List.filter_cons_of_pos hline,
          toCrlf_other h]
        exact congrArg _ ih
      · rw [lineEnds,List.filter_cons_of_neg hline,lineEnds,List.filter_cons_of_neg hline]
        exact ih

lemma length_toCrlf_le (s : List Char) : s.length ≤ (toCrlf s).length := by
  induction s with
  | nil => exact Nat.le_refl 0
  | cons r s ih =>
    by_cases h : r = '\n'
    · rw [h,toCrlf_feed,List.length_cons,List.length_cons,List.length_cons]
      omega
    · rw [toCrlf_other h,List.length_cons,List.length_cons]
      omega

/-- Only a run whose one line end is a line feed is written differently. -/
lemma written_toCrlf (h : run ≠ []) : (lineEnds run ≠ ['\n'] ∧ written (toCrlf run) = written run)
    ∨ (lineEnds run = ['\n'] ∧ written (toCrlf run) = ['\n','\n'] ∧ written run = ['\n']) := by
  have hne : toCrlf run ≠ [] := by
    rw [← List.isEmpty_eq_false_iff,toCrlf_isEmpty]
    exact List.isEmpty_eq_false_iff.mpr h
  have hends : (lineEnds (toCrlf run)).length =
    (toCrlf (lineEnds run)).length := by rw [lineEnds_toCrlf]
  obtain ⟨hn,hw⟩ | ⟨hn,hw⟩ | ⟨hn,hw⟩ := written_cases h
  · rw [List.length_eq_zero_iff] at hn
    rw [hn] at hends ⊢
    refine Or.inl ⟨by decide,?_⟩
    rw [hw,written,hends]
    exact separator_none (List.length_pos_iff.mpr hne)
  · obtain ⟨e,he⟩ := List.length_eq_one_iff.mp hn
    rw [he] at hends ⊢
    by_cases hfeed : e = '\n'
    · refine Or.inr ⟨by rw [hfeed],?_,hw⟩
      rw [written,hends,hfeed]
      exact separator_many (by decide)
    · refine Or.inl ⟨fun heq => hfeed (List.cons.inj heq).1,?_⟩
      rw [hw,written,hends,toCrlf_other hfeed]
      exact separator_one _
  · have hlen := length_toCrlf_le (lineEnds run)
    refine Or.inl ⟨fun heq => ?_,?_⟩
    · rw [heq] at hn
      exact absurd hn (by decide)
    · rw [hw,written]
      exact separator_many (by omega)

lemma splitOn_toCrlf (g : List Char) :
    (toCrlf g).splitOn replacement = (g.splitOn replacement).map toCrlf := by
  induction g with
  | nil => rfl
  | cons r g ih =>
    obtain ⟨l,ls,hsplit⟩ := List.exists_cons_of_ne_nil (List.splitOn_ne_nil replacement g)
    rw [hsplit] at ih
    by_cases hfeed : r = '\n'
    · rw [hfeed,toCrlf_feed,List.splitOn_cons_eq_if_modifyHead,
        List.splitOn_cons_eq_if_modifyHead,ih,
        List.splitOn_cons_eq_if_modifyHead,hsplit,if_neg (by decide),if_neg (by decide),
        if_neg (by decide)]
      simp
    · rw [toCrlf_other hfeed,List.splitOn_cons_eq_if_modifyHead,ih,
        List.splitOn_cons_eq_if_modifyHead,hsplit]
      by_cases hrep : (r == replacement) = true
      · rw [if_pos hrep,if_pos hrep]
        rfl
      · rw [if_neg hrep,if_neg hrep]
        simp [toCrlf_other hfeed]

lemma runs_toCrlf (g : List Char) : runs (toCrlf g) = (runs g).map toCrlf := by
  have hpred : (fun run : List Char => !run.isEmpty) ∘ toCrlf = fun run => !run.isEmpty := by
    funext run
    simp only [Function.comp,toCrlf_isEmpty]
  rw [runs,splitOn_toCrlf,List.filter_map,hpred,runs]

lemma junk_toCrlf (hg : ∀ c ∈ g, junk c = true) : ∀ c ∈ toCrlf g, junk c = true := by
  intro c hc
  obtain ⟨r,hr,hc⟩ := List.mem_flatMap.mp hc
  split at hc
  · have hcr : c = '\r' ∨ c = '\n' := by simpa using hc
    obtain rfl | rfl := hcr
    · decide
    · decide
  · rw [List.mem_singleton.mp hc]
    exact hg r hr

lemma flatten_toCrlf_le {ls : List (List Char)} (hls : ∀ run ∈ ls, run ≠ []) :
    ((ls.map written).flatten).length ≤ (((ls.map toCrlf).map written).flatten).length := by
  induction ls with
  | nil => exact Nat.le_refl 0
  | cons l ls ih =>
    have hrest := ih (fun run hrun => hls run (List.mem_cons_of_mem _ hrun))
    simp only [List.map_cons,List.flatten_cons,List.length_append] at hrest ⊢
    obtain ⟨-,hw⟩ | ⟨-,hw,hv⟩ := written_toCrlf (hls l List.mem_cons_self)
    · rw [hw]
      omega
    · rw [hw,hv]
      simp only [List.length_cons,List.length_nil]
      omega

lemma flatten_toCrlf_iff {ls : List (List Char)} (hls : ∀ run ∈ ls, run ≠ []) :
    ((ls.map toCrlf).map written).flatten = (ls.map written).flatten ↔ ∀ run ∈ ls,
    lineEnds run ≠ ['\n'] := by
  induction ls with
  | nil => exact ⟨fun _ run hrun => (by cases hrun),fun _ => rfl⟩
  | cons l ls ih =>
    have hls' : ∀ run ∈ ls, run ≠ [] := fun run hrun => hls run (List.mem_cons_of_mem _ hrun)
    simp only [List.map_cons,List.flatten_cons,List.forall_mem_cons]
    obtain ⟨hends,hw⟩ | ⟨hends,hw,hv⟩ := written_toCrlf (hls l List.mem_cons_self)
    · rw [hw,List.append_cancel_left_eq,ih hls']
      exact ⟨fun h => ⟨hends,h⟩,fun h => h.2⟩
    · refine ⟨fun heq => ?_,fun h => absurd hends h.1⟩
      have hle := flatten_toCrlf_le hls'
      have hlen := congrArg List.length heq
      rw [hw,hv] at hlen
      simp only [List.length_append,List.length_cons,List.length_nil] at hlen
      omega

/-- Between two characters the same is written with carriage returns exactly if no run has a line
feed as its only line end. -/
lemma gap_toCrlf_iff (hg : ∀ c ∈ g, junk c = true) :
    gap (toCrlf g) = gap g ↔ ∀ run ∈ runs g, lineEnds run ≠ ['\n'] := by
  rw [gap_runs (junk_toCrlf hg),gap_runs hg,runs_toCrlf]
  exact flatten_toCrlf_iff (fun run hrun => runs_ne_nil hrun)

lemma collapseLoop_toCr (s : List Char) (newlines spaces : ℕ) (wrote : Bool) :
    collapseLoop (toCr s) newlines spaces wrote = collapseLoop s newlines spaces wrote := by
  induction s generalizing newlines spaces wrote with
  | nil => rfl
  | cons r s ih =>
    have hcons : toCr (r :: s) = (if r = '\n' then '\r' else r) :: toCr s := rfl
    rw [hcons]
    by_cases hfeed : r = '\n'
    · rw [if_pos hfeed,hfeed,collapseLoop,collapseLoop,if_pos (by decide),if_pos (by decide),ih]
    · rw [if_neg hfeed,collapseLoop,collapseLoop]
      simp only [ih]

lemma collapse_toCr (s : List Char) : collapse (toCr s) = collapse s := by
  rw [collapse,collapseLoop_toCr,collapse]

end spellings

section normal
variable {s : List Char} {ps : List (Char × List Char)}

lemma pieces_gaps (s : List Char) : (∀ c ∈ (pieces s).1, junk c = true) ∧ ∀ p ∈ (pieces s).2,
    ∀ c ∈ p.2, junk c = true := by
  induction s with
  | nil => exact ⟨fun c hc => (by cases hc),fun p hp => (by cases hp)⟩
  | cons r s ih =>
    by_cases hjunk : junk r = true
    · rw [pieces_junk hjunk]
      exact ⟨List.forall_mem_cons.mpr ⟨hjunk,ih.1⟩,ih.2⟩
    · rw [Bool.not_eq_true] at hjunk
      rw [pieces_written hjunk]
      exact ⟨fun c hc => (by cases hc),List.forall_mem_cons.mpr ⟨ih.1,ih.2⟩⟩

lemma junk_between (s : List Char) : ∀ g ∈ between s, ∀ c ∈ g, junk c = true := by
  intro g hg
  obtain ⟨p,hp,rfl⟩ := List.mem_map.mp hg
  exact (pieces_gaps s).2 p (List.mem_of_mem_dropLast hp)

lemma pieces_toCrlf (s : List Char) :
    pieces (toCrlf s) = (toCrlf (pieces s).1,(pieces s).2.map (fun p => (p.1,toCrlf p.2))) := by
  induction s with
  | nil => rfl
  | cons r s ih =>
    by_cases hfeed : r = '\n'
    · rw [hfeed,toCrlf_feed,pieces_junk (by decide),pieces_junk (by decide),pieces_junk (by decide),
        ih,toCrlf_feed]
    · rw [toCrlf_other hfeed]
      by_cases hjunk : junk r = true
      · rw [pieces_junk hjunk,pieces_junk hjunk,ih,toCrlf_other hfeed]
      · rw [Bool.not_eq_true] at hjunk
        rw [pieces_written hjunk,pieces_written hjunk,ih]
        rfl

lemma between_toCrlf (s : List Char) : between (toCrlf s) = (between s).map toCrlf := by
  rw [between,pieces_toCrlf,between,inner,inner,← List.map_dropLast,List.map_map,List.map_map]
  rfl

/-- Collapsing twice is collapsing once exactly if what is written between two characters is written
again as it is. -/
lemma again_iff (s : List Char) :
    collapse (collapse s) = collapse s ↔ ∀ g ∈ between s, gap (gap g) = gap g := by
  have hchars := pieces_chars s
  obtain ⟨-,hsame,hinner⟩ := pieces_render hchars
  rw [collapse_eq s,collapse_eq,render_eq_iff (pieces_chars _) hchars hsame,hinner,List.map_map,
    List.map_inj_left]
  rfl

lemma crlf_iff (s : List Char) :
    collapse (toCrlf s) = collapse s ↔ ∀ g ∈ between s, gap (toCrlf g) = gap g := by
  have hsame : (pieces (toCrlf s)).2.map Prod.fst = (pieces s).2.map Prod.fst := by
    rw [pieces_toCrlf,List.map_map]
    rfl
  have hinner : inner (pieces (toCrlf s)).2 = (between s).map toCrlf := between_toCrlf s
  rw [collapse_eq,collapse_eq,render_eq_iff (pieces_chars _) (pieces_chars _) hsame,hinner,
    List.map_map,
    show inner (pieces s).2 = between s from rfl,List.map_inj_left]
  rfl

lemma filter_render (hps : ∀ p ∈ ps, junk p.1 = false) :
    (render ps).filter (fun r => !isSpace r) = ps.map Prod.fst := by
  induction ps with
  | nil => rfl
  | cons p ps ih =>
    have hp := (not_lineEnd_of_not_junk (hps p List.mem_cons_self)).2.1
    cases ps with
    | nil =>
      change [p.1].filter (fun r => !isSpace r) = [p.1]
      rw [List.filter_cons_of_pos (by simp [hp])]
      rfl
    | cons q ps =>
      have hgap : (gap p.2).filter (fun r => !isSpace r) = [] := by
        rw [List.filter_eq_nil_iff]
        intro c hc
        simp [gap_space p.2 c hc]
      change (p.1 :: (gap p.2 ++ render (q :: ps))).filter (fun r => !isSpace r) = _
      rw [List.filter_cons_of_pos (by simp [hp]),List.filter_append,hgap,List.nil_append,
        ih (fun r hr => hps r (List.mem_cons_of_mem _ hr))]
      rfl

lemma pieces_fst (s : List Char) :
    (pieces s).2.map Prod.fst = s.filter (fun r => !isSpace r && r ≠ replacement) := by
  induction s with
  | nil => rfl
  | cons r s ih =>
    by_cases hjunk : junk r = true
    · have hout : ¬ (!isSpace r && decide (r ≠ replacement)) = true := by
        simpa [junk,imp_iff_not_or] using hjunk
      rw [pieces_junk hjunk,List.filter_cons,if_neg hout]
      exact ih
    · rw [Bool.not_eq_true] at hjunk
      obtain ⟨-,hspace,hrep⟩ := not_lineEnd_of_not_junk hjunk
      rw [pieces_written hjunk,List.filter_cons_of_pos (by simp [hspace,hrep]),← ih]
      rfl

lemma collapse_ends (s : List Char) : (∀ c, (collapse s).head? = some c → isSpace c = false)
    ∧ ∀ c, (collapse s).getLast? = some c → isSpace c = false := by
  rw [collapse_eq]
  by_cases hps : (pieces s).2 = []
  · rw [hps]
    exact ⟨fun c hc => (by cases hc),fun c hc => (by cases hc)⟩
  · obtain ⟨p,hp,q,hq,y,hy,hlast⟩ := render_ends hps
    refine ⟨fun c hc => ?_,fun c hc => ?_⟩
    · rw [hy] at hc
      rw [← Option.some.inj hc]
      exact (not_lineEnd_of_not_junk (pieces_chars s p hp)).2.1
    · rw [hlast] at hc
      rw [← Option.some.inj hc]
      exact (not_lineEnd_of_not_junk (pieces_chars s q hq)).2.1

/-- White space in a row ends where a character is. -/
lemma spaces_within {x u z : List Char} {d : Char} (hx : ∀ c ∈ x, isSpace c = true) (hne : x ≠ [])
    (hd : isSpace d = false)
    (h : x <:+: u ++ d :: z) : x <:+: u ∨ x <:+: z := by
  have hstop : ∀ v, x <+: v ++ d :: z → x <+: v := by
    intro v hv
    obtain hle | hlt := Nat.lt_or_ge v.length x.length
    · have hpre : v ++ [d] <+: x :=
        List.prefix_of_prefix_length_le ⟨z,by simp⟩ hv (by simpa using hle)
      have hmem := hx d (hpre.subset (by simp))
      rw [hd] at hmem
      cases hmem
    · exact List.prefix_of_prefix_length_le hv (List.prefix_append _ _) hlt
  induction u with
  | nil =>
    obtain hpre | hin := List.infix_cons_iff.mp h
    · exact absurd (List.prefix_nil.mp (hstop [] hpre)) hne
    · exact Or.inr hin
  | cons r u ih =>
    obtain hpre | hin := List.infix_cons_iff.mp h
    · exact Or.inl (hstop (r :: u) hpre).isInfix
    · obtain hin | hin := ih hin
      · exact Or.inl (List.infix_cons_iff.mpr (Or.inr hin))
      · exact Or.inr hin

/-- White space in a row is within what is written between two characters. -/
lemma spaces_in_gap {x : List Char} (hx : ∀ c ∈ x, isSpace c = true) (hne : x ≠ [])
    (hps : ∀ p ∈ ps, junk p.1 = false)
    (h : x <:+: render ps) : ∃ g ∈ inner ps, x <:+: gap g := by
  induction ps with
  | nil => exact absurd (List.infix_nil.mp h) hne
  | cons p ps ih =>
    have hp := (not_lineEnd_of_not_junk (hps p List.mem_cons_self)).2.1
    cases ps with
    | nil =>
      obtain hin | hin := @spaces_within x [] [] p.1 hx hne hp h
      · exact absurd (List.infix_nil.mp hin) hne
      · exact absurd (List.infix_nil.mp hin) hne
    | cons q ps =>
      have hps' : ∀ r ∈ q :: ps, junk r.1 = false := fun r hr => hps r (List.mem_cons_of_mem _ hr)
      rw [inner_cons]
      obtain hin | hin := @spaces_within x [] (gap p.2 ++ render (q :: ps)) p.1 hx hne hp h
      · exact absurd (List.infix_nil.mp hin) hne
      · obtain ⟨p',hp',-,-,y,hy,-⟩ := render_ends (List.cons_ne_nil q ps)
        have hq := (not_lineEnd_of_not_junk (hps' p' hp')).2.1
        rw [hy] at hin
        obtain hin | hin := spaces_within hx hne hq hin
        · exact ⟨p.2,List.mem_cons_self,hin⟩
        · obtain ⟨g,hg,hgap⟩ := ih hps' (by rw [hy]; exact List.infix_cons_iff.mpr (Or.inr hin))
          exact ⟨g,List.mem_cons_of_mem _ hg,hgap⟩

lemma short_gaps (h : ∀ g ∈ between s, gap (gap g) = gap g) :
    ¬ [' ',' '] <:+: collapse s ∧ ¬ ['\n','\n','\n'] <:+: collapse s := by
  rw [collapse_eq]
  refine ⟨fun hin => ?_,fun hin => ?_⟩
  · obtain ⟨g,hg,hin⟩ := spaces_in_gap (List.all_eq_true.mp (by decide)) (by simp)
      (pieces_chars s) hin
    obtain hgap | hgap | hgap | hgap := gap_forms (h g hg)
    all_goals
      rw [hgap] at hin
      revert hin
      decide
  · obtain ⟨g,hg,hin⟩ := spaces_in_gap (List.all_eq_true.mp (by decide)) (by simp)
      (pieces_chars s) hin
    obtain hgap | hgap | hgap | hgap := gap_forms (h g hg)
    all_goals
      rw [hgap] at hin
      revert hin
      decide

/-- A collapsed text is a normal form exactly if what is between its characters is plain. -/
theorem normalForm_iff (s : List Char) : NormalForm s ↔ ∀ g ∈ between s, Plain g := by
  have hfixed : ∀ g ∈ between s, gap (gap g) = gap g ↔ Settled (runs g) :=
    fun g hg => gap_gap_iff (junk_between s g hg)
  have hcrlf : ∀ g ∈ between s, gap (toCrlf g) = gap g ↔ ∀ run ∈ runs g, lineEnds run ≠ ['\n'] :=
    fun g hg => gap_toCrlf_iff (junk_between s g hg)
  constructor
  · intro h g hg
    exact ⟨(hcrlf g hg).mp ((crlf_iff s).mp h.crlf g hg),
      (hfixed g hg).mp ((again_iff s).mp h.again g hg)⟩
  · intro h
    have hagain : ∀ g ∈ between s, gap (gap g) = gap g := fun g hg => (hfixed g hg).mpr (h g hg).2
    obtain ⟨hspaces,hnewlines⟩ := short_gaps hagain
    refine ⟨(again_iff s).mpr hagain,(collapse_ends s).1,(collapse_ends s).2,hspaces,hnewlines,?_,
      (crlf_iff s).mpr (fun g hg => (hcrlf g hg).mpr (h g hg).1),collapse_toCr s⟩
    rw [collapse_eq,filter_render (pieces_chars s),pieces_fst]

/-- A replacement character between two spaces leaves both, and they become one the next time;
a line end of two characters becomes an empty line. -/
theorem not_normalForm : ¬ NormalForm ['a',' ','\uFFFD',' ','b'] ∧ ¬ NormalForm ['a','\n','b'] := by
  refine ⟨fun h => ?_,fun h => ?_⟩
  · exact absurd h.again (by decide)
  · exact absurd h.crlf (by decide)

end normal
end Manvi.Fetch
