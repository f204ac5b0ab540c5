import Manvi.Transport.FrameFields

/-! The preflight and the stream reader read the blocks of a stream alike, or not. -/
namespace Manvi.Transport
open Manvi.Encoding

section
variable {α : Type*}

/-- Two columns with gaps that read alike once the gaps are gone, where what the first has alone is
nowhere in the second, agree in every row. -/
lemma rows_agree {rows : List (Option α × Option α)}
    (halone : ∀ r ∈ rows, ∀ x, r.1 = some x → r.2 = none → ∀ r' ∈ rows, r'.2 ≠ some x)
    (h : rows.filterMap Prod.fst = rows.filterMap Prod.snd) : ∀ r ∈ rows, r.1 = r.2 := by
  have hsome : ∀ r ∈ rows, r.2 = none → r.1 = none := by
    intro r hr hnone
    cases hfirst : r.1 with
    | none => rfl
    | some x =>
      have hin : x ∈ rows.filterMap Prod.fst := List.mem_filterMap.mpr ⟨r,hr,hfirst⟩
      rw [h] at hin
      obtain ⟨r',hr',hx⟩ := List.mem_filterMap.mp hin
      exact absurd hx (halone r hr x hfirst hnone r' hr')
  clear halone
  have hle : ∀ rows : List (Option α × Option α), (∀ r ∈ rows, r.2 = none → r.1 = none) →
      (rows.filterMap Prod.fst).length ≤ (rows.filterMap Prod.snd).length := by
    intro rows
    induction rows with
    | nil => simp
    | cons r rows ih =>
      intro hsome
      obtain ⟨hr,hrows⟩ := List.forall_mem_cons.mp hsome
      have hrest := ih hrows
      obtain ⟨x,y⟩ := r
      cases y with
      | none =>
        obtain rfl : x = none := hr rfl
        simpa using hrest
      | some y =>
        cases x with
        | none =>
          simp only [List.filterMap_cons,List.length_cons]
          omega
        | some x => simpa using hrest
  induction rows with
  | nil => simp
  | cons r rows ih =>
    obtain ⟨hr,hrows⟩ := List.forall_mem_cons.mp hsome
    obtain ⟨x,y⟩ := r
    rw [List.forall_mem_cons]
    cases y with
    | none =>
      obtain rfl : x = none := hr rfl
      exact ⟨rfl,ih (by simpa using h) hrows⟩
    | some y =>
      cases x with
      | none =>
        have hlength := congrArg List.length h
        have := hle rows hrows
        simp only [List.filterMap_cons,List.length_cons] at hlength
        omega
      | some x =>
        simp only [List.filterMap_cons,List.cons.injEq] at h
        exact ⟨congrArg some h.1,ih h.2 hrows⟩

end

/-! Blocks as the stream reader takes them. -/

/-- Lines after the last blank one, counted on from some. -/
def afterBlank : List Line → List Line → List Line
  | kept,[] => kept
  | kept,l :: lines => if l.1 = [] then afterBlank [] lines else afterBlank (kept ++ [l]) lines

/-- What the end of the stream makes of the lines after the last blank one. -/
def unfinished (b : Bytes) : List Event × ReadError :=
  let lines := cutLines [] (stripBOM b)
  lineEvents [] ⟨[],[]⟩ (afterBlank [] lines.1) lines.2

/-- The events that blank lines complete: those of repeated calls of Next, less the one that the end
of the stream completed. -/
def blankEvents (b : Bytes) : List Event :=
  let all := (newSSE ⟨[b],false⟩ []).events
  if all.2 = .eof then all.1.take (all.1.length-(unfinished b).1.length) else all.1

/-- The blocks of lines of a stream. -/
def blocks (b : Bytes) : List (List Line) :=
  gather (fun l => l.1 = []) [] (cutLines [] (stripBOM b)).1

/-- The events of blocks, up to the first that is too large. -/
def blockEvents : List (List Line) → List Event × Option ReadError
  | [] => ([],none)
  | block :: rest => match readBlock ⟨[],[]⟩ block with
    | .error e => ([],some e)
    | .ok event =>
      let r := blockEvents rest
      if event = ⟨[],[]⟩ then r else (event :: r.1,r.2)

/-- The events of blocks with what comes after them. -/
def joinEnd (r : List Event × Option ReadError) (last : List Event × ReadError) :
    List Event × ReadError :=
  match r.2 with
  | some e => (r.1,e)
  | none => (r.1 ++ last.1,last.2)

@[simp] lemma readBlock_append (event : Event) (block rest : List Line) :
    readBlock event (block ++ rest) = (readBlock event block).bind (fun event =>
      readBlock event rest) := by
  induction block generalizing event with
  | nil => rfl
  | cons l block ih =>
    rw [List.cons_append,readBlock,readBlock]
    split_ifs
    · rfl
    · exact ih event
    · cases readField event l.1 with
      | error e => rfl
      | ok event => exact ih event

lemma lineEvents_append {lines : List Line} (hall : ∀ l ∈ lines, l.1 ≠ []) (event : Event)
    (rest : List Line)
    (part : Bytes) : lineEvents [] event (lines ++ rest) part = match readBlock event lines with
      | .error e => ([],e)
      | .ok event => lineEvents [] event rest part := by
  induction lines generalizing event with
  | nil => rfl
  | cons l lines ih =>
    obtain ⟨hl,hlines⟩ := List.forall_mem_cons.mp hall
    obtain ⟨t,b⟩ := l
    have hl : ¬ t = [] := hl
    rw [List.cons_append,lineEvents,readBlock]
    change (if lineSize (t,b) > maxFrameBytes then _ else _) = _
    by_cases hsize : lineSize (t,b) > maxFrameBytes
    · rw [if_pos hsize,if_pos hsize]
    rw [if_neg hsize,if_neg hsize,if_neg hl]
    by_cases hcomment : t.head? = some colon
    · rw [if_pos hcomment,if_pos (.inr hcomment)]
      exact ih hlines event
    · rw [if_neg hcomment,if_neg (by tauto)]
      dsimp only
      cases readField event t with
      | error e => rfl
      | ok event => exact ih hlines event

lemma lineEvents_blank (event : Event) (b : Bool) (lines : List Line) (part : Bytes) :
    lineEvents [] event (([],b) :: lines) part = if event = ⟨[],[]⟩ then
    lineEvents [] ⟨[],[]⟩ lines part
      else (event :: (lineEvents [] ⟨[],[]⟩ lines part).1,
        (lineEvents [] ⟨[],[]⟩ lines part).2) := by
  have hsize : ¬ ([] : Bytes).length+1 > maxFrameBytes := by decide
  have hsentinel : ¬ sentinel [] event.data = true := by simp [sentinel]
  obtain ⟨name,data⟩ := event
  rw [lineEvents,if_neg hsize,if_pos rfl,if_neg hsentinel]
  by_cases hempty : data = [] ∧ name = []
  · obtain ⟨rfl,rfl⟩ := hempty
    rfl
  · rw [if_neg hempty,if_neg (by rw [Event.mk.injEq]; tauto)]

/-- A block and the lines after its leading blank one. -/
structure Opens (block kept : List Line) : Prop where
  lines : block = kept ∨ ∃ b, block = ([],b) :: kept
  some : ∀ l ∈ kept, l.1 ≠ []

lemma Opens.readBlock_eq {block kept : List Line} (h : Opens block kept) (event : Event) :
    readBlock event block = readBlock event kept := by
  rcases h.lines with rfl | ⟨b,rfl⟩
  · rfl
  · have hsize : ¬ lineSize ([],
      b) > maxFrameBytes := by show ¬ ([] : Bytes).length+1 > maxFrameBytes; decide
    rw [readBlock,if_neg hsize,if_pos (.inl rfl)]

lemma Opens.append {block kept : List Line} {l : Line} (h : Opens block kept) (hl : l.1 ≠ []) :
    Opens (block ++ [l]) (kept ++ [l]) := by
  refine ⟨?_,?_⟩
  · rcases h.lines with rfl | ⟨b,rfl⟩
    · exact .inl rfl
    · exact .inr ⟨b,rfl⟩
  · intro x hx
    rcases List.mem_append.mp hx with hx | hx
    · exact h.some x hx
    · rw [List.mem_singleton.mp hx]
      exact hl

/-- A block that is too large ends the events, whatever follows. -/
lemma joinEnd_error {block kept : List Line} {e : ReadError} (h : Opens block kept)
    (hne : block ≠ [])
    (he : readBlock ⟨[],[]⟩ kept = .error e) (lines : List Line) (part : Bytes) :
    joinEnd (blockEvents (gather (fun l => l.1 = []) block lines))
      (lineEvents [] ⟨[],[]⟩ (afterBlank kept lines) part) = ([],e) := by
  induction lines generalizing block kept with
  | nil =>
    have hend := lineEvents_append h.some ⟨[],[]⟩ [] part
    rw [List.append_nil,he] at hend
    rw [gather,afterBlank,hend]
    rfl
  | cons l lines ih =>
    obtain ⟨x,rest,rfl⟩ := List.exists_cons_of_ne_nil hne
    rw [gather,afterBlank]
    by_cases hl : l.1 = []
    · rw [if_pos (by simpa using hl),blockEvents,h.readBlock_eq,he]
      rfl
    · rw [if_neg (by simpa using hl),if_neg hl]
      apply ih (h.append hl) (by simp)
      rw [readBlock_append,he]
      rfl

/-- The events of lines are those of their blocks, with what the end makes of the lines after the
last. -/
lemma lineEvents_blocks {block kept : List Line} {event : Event} (h : Opens block kept)
    (hevent : readBlock ⟨[],[]⟩ kept = .ok event) (lines : List Line) (part : Bytes) :
    lineEvents [] event lines part = joinEnd (blockEvents (gather (fun l => l.1 = []) block lines))
      (lineEvents [] ⟨[],[]⟩ (afterBlank kept lines) part) := by
  induction lines generalizing block kept event with
  | nil =>
    have hend := lineEvents_append h.some ⟨[],[]⟩ [] part
    rw [List.append_nil,hevent] at hend
    rw [gather,afterBlank,hend]
    rfl
  | cons l lines ih =>
    have hfresh : Opens [] [] := ⟨.inl rfl,by simp⟩
    by_cases hl : l.1 = []
    · obtain ⟨t,b⟩ := l
      obtain rfl : t = [] := hl
      rw [lineEvents_blank,afterBlank,if_pos rfl]
      cases block with
      | nil =>
        have hkept : kept = [] := by
          rcases h.lines with hnil | ⟨_,hcons⟩
          · exact hnil.symm
          · cases hcons
        rw [hkept] at hevent
        cases hevent
        have hopen : Opens [([],b)] [] := ⟨.inr ⟨b,rfl⟩,by simp⟩
        rw [if_pos rfl,gather]
        exact ih hopen rfl
      | cons x block =>
        have hgather : gather (fun l : Line => decide (l.1 = [])) (x :: block) (([],b) :: lines) =
            (x :: block) :: gather (fun l => decide (l.1 = [])) [] lines := by
          rw [gather,if_pos (by simp)]
        rw [hgather,blockEvents,h.readBlock_eq,hevent,ih hfresh rfl]
        by_cases hempty : event = ⟨[],[]⟩
        · simp only [hempty,if_true]
        · simp only [hempty,if_false]
          unfold joinEnd
          cases (blockEvents (gather (fun l : Line => decide (l.1 = [])) [] lines)).2 <;> rfl
    · have hgather : gather (fun l : Line => decide (l.1 = [])) block (l :: lines) =
          gather (fun l => decide (l.1 = [])) (block ++ [l]) lines := by
        cases block with
        | nil => rfl
        | cons x block =>
          rw [gather,if_neg (by simpa using hl)]
      have hone : ∀ x ∈ [l], x.1 ≠ [] := by simpa using hl
      have hstep := lineEvents_append hone event lines part
      have hread : readBlock ⟨[],[]⟩ (kept ++ [l]) = readBlock event [l] := by
        rw [readBlock_append,hevent]
        rfl
      rw [hgather,afterBlank,if_neg hl]
      rw [List.singleton_append] at hstep
      rw [hstep]
      cases hone : readBlock event [l] with
      | error e => exact (joinEnd_error (h.append hl) (by simp) (hread.trans hone) lines part).symm
      | ok event => exact ih (h.append hl) (hread.trans hone)

lemma afterBlank_some {kept : List Line} (h : ∀ l ∈ kept, l.1 ≠ []) (lines : List Line) :
    ∀ l ∈ afterBlank kept lines, l.1 ≠ [] := by
  induction lines generalizing kept with
  | nil => exact h
  | cons l lines ih =>
    rw [afterBlank]
    by_cases hl : l.1 = []
    · rw [if_pos hl]
      exact ih (by simp)
    · rw [if_neg hl]
      apply ih
      intro x hx
      rcases List.mem_append.mp hx with hx | hx
      · exact h x hx
      · rw [List.mem_singleton.mp hx]
        exact hl

lemma readField_error {event : Event} {line : Bytes} {e : ReadError}
    (h : readField event line = .error e) : e ≠ .eof := by
  rw [readField] at h
  by_cases hevent : (cutField line).1 = eventField
  · rw [if_pos hevent] at h
    cases h
  rw [if_neg hevent] at h
  by_cases hdata : (cutField line).1 = dataField
  · rw [if_pos hdata] at h
    dsimp only at h
    generalize (if event.data = [] then (cutField line).2 else event.data ++
      lf :: (cutField line).2) = grown at h
    by_cases hlong : grown.length > maxEventBytes
    · rw [if_pos hlong] at h
      cases h
      decide
    · rw [if_neg hlong] at h
      cases h
  · rw [if_neg hdata] at h
    cases h

lemma readBlock_error {event : Event} {block : List Line} {e : ReadError}
    (h : readBlock event block = .error e) :
    e ≠ .eof := by
  induction block generalizing event with
  | nil => cases h
  | cons l block ih =>
    rw [readBlock] at h
    split_ifs at h
    · cases h
      decide
    · exact ih h
    · cases hfield : readField event l.1 with
      | error e' =>
        rw [hfield] at h
        cases h
        exact readField_error hfield
      | ok event =>
        rw [hfield] at h
        exact ih h

lemma blockEvents_error {blocks : List (List Line)} {e : ReadError}
    (h : (blockEvents blocks).2 = some e) : e ≠ .eof := by
  induction blocks with
  | nil => cases h
  | cons block blocks ih =>
    rw [blockEvents] at h
    cases hread : readBlock ⟨[],[]⟩ block with
    | error e' =>
      rw [hread] at h
      cases h
      exact readBlock_error hread
    | ok event =>
      rw [hread] at h
      dsimp only at h
      split_ifs at h
      · exact ih h
      · exact ih h

/-- Without a blank line there is an event only at the end of the stream. -/
lemma lineEvents_unfinished {lines : List Line} (h : ∀ l ∈ lines, l.1 ≠ []) (part : Bytes)
    (hne : (lineEvents [] ⟨[],[]⟩ lines part).2 ≠ .eof) :
    (lineEvents [] ⟨[],[]⟩ lines part).1 = [] := by
  have hlast : ∀ event, (lineEvents [] event [] part).2 ≠ .eof →
    (lineEvents [] event [] part).1 = [] := by
    intro event hne
    have hdone : ∀ event, (lastEvent [] event).2 = .eof := by
      intro event
      unfold lastEvent
      split_ifs <;> rfl
    rw [lineEvents] at hne ⊢
    split_ifs at hne ⊢ with h1 h2 h3
    · rfl
    · rfl
    · exact absurd (hdone event) hne
    · cases hfield : readField event part with
      | error e => rfl
      | ok event =>
        rw [hfield] at hne
        dsimp only at hne ⊢
        split_ifs at hne ⊢
        · rfl
        · exact absurd (hdone event) hne
  have hend := lineEvents_append h ⟨[],[]⟩ [] part
  rw [List.append_nil] at hend
  rw [hend] at hne ⊢
  cases hread : readBlock ⟨[],[]⟩ lines with
  | error e => rfl
  | ok event =>
    rw [hread] at hne
    exact hlast event hne

/-- The events that blank lines complete are those of the blocks. -/
lemma blankEvents_eq (b : Bytes) : blankEvents b = (blockEvents (blocks b)).1 := by
  have hall : (newSSE ⟨[b],false⟩ []).events = joinEnd (blockEvents (blocks b)) (unfinished b) := by
    have hopen : Opens [] [] := ⟨.inl rfl,by simp⟩
    rw [events_whole]
    exact lineEvents_blocks hopen rfl _ _
  rw [blankEvents,hall,joinEnd]
  cases hend : (blockEvents (blocks b)).2 with
  | some e =>
    dsimp only
    rw [if_neg (blockEvents_error hend)]
  | none =>
    dsimp only
    by_cases heof : (unfinished b).2 = .eof
    · rw [if_pos heof,List.length_append,Nat.add_sub_cancel,List.take_left]
    · have hnone : (unfinished b).1 = [] :=
        lineEvents_unfinished (afterBlank_some (by simp) _) _ heof
      rw [if_neg heof,hnone,List.append_nil]

/-! The two readers, block by block. -/

def found (event : Event) : Option Event := if event = ⟨[],[]⟩ then none else some event

/-- What the stream reader and the preflight find in each block. -/
def rows : List (List Line) → List (Option Event × Option Event)
  | [] => []
  | block :: rest => match readBlock ⟨[],[]⟩ block with
    | .error _ => (block :: rest).map (fun x => (none,found (lineFields (x.map Prod.fst))))
    | .ok event => (found event,found (lineFields (block.map Prod.fst))) :: rows rest

lemma filterMap_rows_fst (blocks : List (List Line)) :
    (rows blocks).filterMap Prod.fst = (blockEvents blocks).1 := by
  induction blocks with
  | nil => rfl
  | cons block blocks ih =>
    rw [rows,blockEvents]
    cases readBlock ⟨[],[]⟩ block with
    | error e => simp
    | ok event =>
      dsimp only
      rw [List.filterMap_cons,ih,found]
      by_cases hempty : event = ⟨[],[]⟩
      · simp only [hempty,if_true]
      · simp only [hempty,if_false]

lemma filterMap_rows_snd (blocks : List (List Line)) : (rows blocks).filterMap Prod.snd =
    (blocks.map (fun x => lineFields (x.map Prod.fst))).filter (fun event => event ≠ ⟨[],[]⟩) := by
  have hfilter : ∀ blocks :
    List (List Line), blocks.filterMap (fun x => found (lineFields (x.map Prod.fst))) =
      (blocks.map (fun x => lineFields (x.map Prod.fst))).filter (fun event => event ≠ ⟨[],
        []⟩) := by
    intro blocks
    rw [← List.filterMap_eq_filter,List.filterMap_map]
    congr 1
    funext x
    simp only [found,Function.comp,Option.guard]
    split_ifs <;> simp_all
  induction blocks with
  | nil => rfl
  | cons block blocks ih =>
    rw [rows]
    cases readBlock ⟨[],[]⟩ block with
    | error e =>
      dsimp only
      rw [List.filterMap_map,← hfilter]
      rfl
    | ok event =>
      rw [← hfilter,List.filterMap_cons,List.filterMap_cons,ih,hfilter]

lemma found_inj {a b : Event} : found a = found b ↔ a = b := by
  unfold found
  constructor
  · intro h
    split_ifs at h with ha hb
    · rw [ha,hb]
    · exact Option.some.inj h
  · rintro rfl
    rfl

/-- Blocks in which the stream reader and the preflight find the same: within the bounds the names
and the data agree, and from the first block that is too large the preflight finds nothing. -/
def Alike : List (List Line) → Prop
  | [] => True
  | block :: rest =>
    (FitsFrom [] block ∧ NameAgrees (block.map Prod.fst) ∧ DataAgrees (block.map Prod.fst) ∧
      Alike rest) ∨
      (¬ FitsFrom [] block ∧ ∀ x ∈ block :: rest, Silent (x.map Prod.fst))

/-- What the stream reader finds and the preflight does not is nothing that the preflight finds. -/
lemma rows_alone {blocks : List (List Line)} {r : Option Event × Option Event}
    (hr : r ∈ rows blocks) :
    (∀ x, r.1 = some x → r.2 = none → x.name ≠ [] ∧ trimSpace x.name = []) ∧
      ∀ x, r.2 = some x → trimSpace x.name = x.name := by
  have hsnd : ∀ (lines : List Bytes) (x : Event), found (lineFields lines) = some x →
    trimSpace x.name = x.name := by
    intro lines x hx
    unfold found at hx
    split_ifs at hx
    cases hx
    rw [lineFields_eq]
    exact trimSpace_trimSpace _
  induction blocks with
  | nil => cases hr
  | cons block blocks ih =>
    rw [rows] at hr
    rcases readBlock_spec ⟨[],[]⟩ block (by decide) with ⟨_,hok⟩ | ⟨_,e,herror⟩
    · rw [hok] at hr
      rcases List.mem_cons.mp hr with rfl | hr
      · refine ⟨?_,hsnd _⟩
        intro x hx hnone
        have hsilent : Silent (block.map Prod.fst) := by
          rw [← silent_iff]
          unfold found at hnone
          by_contra hne
          rw [if_neg hne] at hnone
          cases hnone
        obtain ⟨hname,hdata⟩ := fieldsFrom_of_silent hsilent
        dsimp only at hx
        unfold found at hx
        split_ifs at hx with hne
        cases hx
        refine ⟨?_,hname⟩
        intro hnil
        apply hne
        change (⟨(fieldsFrom ⟨[],[]⟩ (block.map Prod.fst)).name,
          (fieldsFrom ⟨[],[]⟩ (block.map Prod.fst)).data⟩ : Event) = _
        rw [hnil,hdata]
      · exact ih hr
    · rw [herror] at hr
      obtain ⟨x,_,rfl⟩ := List.mem_map.mp hr
      refine ⟨?_,hsnd _⟩
      intro x hx
      cases hx

lemma rows_alike_iff {blocks : List (List Line)}
    (hplain : ∀ block ∈ blocks, Plain (block.map Prod.fst)) :
    (∀ r ∈ rows blocks, r.1 = r.2) ↔ Alike blocks := by
  induction blocks with
  | nil => simp [rows,Alike]
  | cons block blocks ih =>
    obtain ⟨hblock,hblocks⟩ := List.forall_mem_cons.mp hplain
    rw [rows,Alike]
    rcases readBlock_spec ⟨[],[]⟩ block (by decide) with ⟨hfits,hok⟩ | ⟨hfits,e,herror⟩
    · rw [hok]
      simp only [hfits,true_and,not_true_eq_false,false_and,or_false]
      rw [List.forall_mem_cons,found_inj,fields_agree_iff hblock,ih hblocks,and_assoc]
    · rw [herror]
      simp only [hfits,false_and,not_false_eq_true,true_and,false_or]
      rw [List.forall_mem_map]
      apply forall₂_congr
      intro x _
      have hnone : none = found ⟨[],[]⟩ := rfl
      dsimp only
      rw [← silent_iff,hnone,eq_comm,found_inj]

lemma gather_mem {α : Type*} {blank : α → Bool} {block lines : List α} {x : List α} {l : α}
    (hx : x ∈ gather blank block lines) (hl : l ∈ x) : l ∈ block ∨ l ∈ lines := by
  induction lines generalizing block with
  | nil =>
    rw [gather] at hx
    cases hx
  | cons m lines ih =>
    cases block with
    | nil =>
      rw [gather] at hx
      rcases ih hx with h | h
      · rw [List.mem_singleton.mp h]
        exact .inr List.mem_cons_self
      · exact .inr (List.mem_cons_of_mem _ h)
    | cons y block =>
      rw [gather] at hx
      split_ifs at hx
      · rcases List.mem_cons.mp hx with rfl | hx
        · exact .inl hl
        · rcases ih hx with h | h
          · cases h
          · exact .inr (List.mem_cons_of_mem _ h)
      · rcases ih hx with h | h
        · rcases List.mem_append.mp h with h | h
          · exact .inl h
          · rw [List.mem_singleton.mp h]
            exact .inr List.mem_cons_self
        · exact .inr (List.mem_cons_of_mem _ h)

/-- No line holds an LF. -/
lemma cutLines_noLF {cur s : Bytes} (hcur : lf ∉ cur) : ∀ l ∈ (cutLines cur s).1, lf ∉ l.1 := by
  induction s using scanCR.induct generalizing cur with
  | case1 => simp [cutLines]
  | case2 =>
    rw [cutLines_cr (by simp),List.forall_mem_cons]
    exact ⟨hcur,by simp [cutLines]⟩
  | case3 rest ih =>
    rw [cutLines_cr_lf,List.forall_mem_cons]
    exact ⟨hcur,ih List.not_mem_nil⟩
  | case4 d rest hd ih =>
    rw [cutLines_cr (by simpa using hd),List.forall_mem_cons]
    exact ⟨hcur,ih List.not_mem_nil⟩
  | case5 c rest hc ih =>
    by_cases hl : c = lf
    · rw [hl,cutLines_lf,List.forall_mem_cons]
      exact ⟨hcur,ih List.not_mem_nil⟩
    · rw [cutLines_other hc hl]
      apply ih
      simp only [List.mem_append,List.mem_singleton,not_or]
      exact ⟨hcur,fun h => hl h.symm⟩

lemma blocks_plain (b : Bytes) : ∀ block ∈ blocks b, Plain (block.map Prod.fst) := by
  intro block hblock line hline
  obtain ⟨l,hl,rfl⟩ := List.mem_map.mp hline
  rcases gather_mem hblock hl with h | h
  · cases h
  · exact cutLines_noLF List.not_mem_nil l h

lemma framePairs_eq (b : Bytes) : framePairs b = (rows (blocks b)).filterMap Prod.snd := by
  have hlength := stripBOM_length_le b
  have hblocks : (wholeFrames (b.length+1) (stripBOM b)).map frameLines = (blocks b).map
    (List.map Prod.fst) := by
    rw [wholeFrames_blocks (by omega),contents]
    exact gather_map Prod.fst (fun l : Bytes => decide (l = [])) [] _
  have hfields : (wholeFrames (b.length+1) (stripBOM b)).map frameFields =
      (blocks b).map (fun x => lineFields (x.map Prod.fst)) := by
    have hmap := congrArg (List.map lineFields) hblocks
    rw [List.map_map,List.map_map] at hmap
    exact hmap
  rw [framePairs,hfields,filterMap_rows_snd]

/-- The preflight reads the events that the stream reader returns for a blank line exactly when
every block of the stream is read alike. -/
theorem framePairs_eq_blankEvents_iff (b : Bytes) :
    framePairs b = blankEvents b ↔ Alike (blocks b) := by
  rw [framePairs_eq,blankEvents_eq,← filterMap_rows_fst,← rows_alike_iff (blocks_plain b),eq_comm]
  constructor
  · apply rows_agree
    intro r hr x hfirst hnone r' hr' hx
    obtain ⟨hne,hblank⟩ := (rows_alone hr).1 x hfirst hnone
    have hname := (rows_alone hr').2 x hx
    exact hne (hname.symm.trans hblank)
  · intro h
    exact List.filterMap_congr h

/-- "event: a " and "data: x" in one frame: the preflight drops the space after the name. -/
theorem name_space_read_apart :
    framePairs [101,118,101,110,116,58,32,97,32,10,100,97,116,97,58,32,120,10,10] ≠
      blankEvents [101,118,101,110,116,58,32,97,32,10,100,97,116,97,58,32,120,10,10] := by
  have hframe : framePairs [101,118,101,110,116,58,32,97,32,10,100,97,116,97,58,32,120,10,
    10] = [⟨[97],[120]⟩] := by
    decide
  have hnext : blankEvents [101,118,101,110,116,58,32,97,32,10,100,97,116,97,58,32,120,10,
    10] = [⟨[97,32],[120]⟩] := by
    decide
  rw [hframe,hnext]
  decide

end Manvi.Transport
