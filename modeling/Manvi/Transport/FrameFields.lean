import Manvi.Transport.Frames

/-! The fields of a block of lines, as the stream reader and as the preflight find them, and when
the two agree. -/
namespace Manvi.Transport
open Manvi.Encoding

/-- The values that lines give a field, each with whether a colon came before it. -/
def fieldValues (field : Bytes) (lines : List Bytes) : List (Bytes × Bool) :=
  lines.filterMap (fun line => if (cutField line).1 = field then
    some ((cutField line).2,decide (colon ∈ line)) else none)

/-- Data lines as the stream reader joins them to what it has. -/
def joinData (data : Bytes) (values : List Bytes) : Bytes :=
  values.foldl (fun data value => if data = [] then value else data ++ lf :: value) data

/-- The last of some values. -/
def lastValue (first : Bytes) (values : List (Bytes × Bool)) : Bytes :=
  (values.getLast?.map Prod.fst).getD first

/-- How much of the bound a line takes: whatever ends it counts once. -/
def lineSize (l : Line) : ℕ := l.1.length+1

/-- Read the lines of a block into an event. -/
def readBlock : Event → List Line → Except ReadError Event
  | event,[] => .ok event
  | event,l :: lines =>
    if lineSize l > maxFrameBytes then .error .oversizedFrame
    else if l.1 = [] ∨ l.1.head? = some colon then readBlock event lines
    else match readField event l.1 with
      | .error e => .error e
      | .ok event => readBlock event lines

lemma fieldValues_cons_of_ne {field line : Bytes} (h : (cutField line).1 ≠ field)
    (lines : List Bytes) :
    fieldValues field (line :: lines) = fieldValues field lines := by
  simp [fieldValues,h]

lemma fieldValues_cons_of_eq {field line : Bytes} (h : (cutField line).1 = field)
    (lines : List Bytes) :
    fieldValues field (line :: lines) = ((cutField line).2,
      decide (colon ∈ line)) :: fieldValues field lines := by
  simp [fieldValues,h]

@[simp] lemma lastValue_cons (first : Bytes) (v : Bytes × Bool) (values : List (Bytes × Bool)) :
    lastValue first (v :: values) = lastValue v.1 values := by
  unfold lastValue
  rw [List.getLast?_cons]
  cases values.getLast? <;> rfl

lemma cutField_comment {line : Bytes} (h : line = [] ∨ line.head? = some colon) :
    (cutField line).1 = [] := by
  rcases h with rfl | h
  · rfl
  · obtain ⟨tail,rfl⟩ := List.head?_eq_some_iff.mp h
    simp [cutField]

/-- The lengths of joined data only grow. -/
lemma le_joinData (data : Bytes) (values : List Bytes) :
    data.length ≤ (joinData data values).length := by
  induction values generalizing data with
  | nil => exact le_rfl
  | cons v values ih =>
    refine le_trans ?_ (ih _)
    by_cases h : data = []
    · simp [h]
    · simp [h]

/-- A block whose lines and data stay within their bounds. -/
def FitsFrom (data : Bytes) (block : List Line) : Prop :=
  (∀ l ∈ block, lineSize l ≤ maxFrameBytes) ∧
    (joinData data ((fieldValues dataField (block.map Prod.fst)).map Prod.fst)).length ≤
    maxEventBytes

/-- The name and the data that the stream reader finds in lines. -/
def fieldsFrom (event : Event) (lines : List Bytes) : Event :=
  ⟨lastValue event.name (fieldValues eventField lines),
    joinData event.data ((fieldValues dataField lines).map Prod.fst)⟩

lemma fieldsFrom_skip {line : Bytes} (he : (cutField line).1 ≠ eventField)
    (hd : (cutField line).1 ≠ dataField)
    (event : Event) (lines : List Bytes) :
    fieldsFrom event (line :: lines) = fieldsFrom event lines := by
  rw [fieldsFrom,fieldValues_cons_of_ne he,fieldValues_cons_of_ne hd]
  rfl

lemma fitsFrom_cons (data : Bytes) (l : Line) (block : List Line) :
    FitsFrom data (l :: block) ↔ lineSize l ≤ maxFrameBytes ∧
      FitsFrom (if (cutField l.1).1 = dataField then
        (if data = [] then (cutField l.1).2 else data ++ lf :: (cutField l.1).2)
        else data) block := by
  unfold FitsFrom
  rw [List.forall_mem_cons,List.map_cons,and_assoc]
  by_cases h : (cutField l.1).1 = dataField
  · rw [fieldValues_cons_of_eq h,if_pos h]
    rfl
  · rw [fieldValues_cons_of_ne h,if_neg h]

/-- Reading a block gives its fields, unless it is too large. -/
lemma readBlock_spec (event : Event) (block : List Line)
    (hdata : event.data.length ≤ maxEventBytes) :
    (FitsFrom event.data block ∧
      readBlock event block = .ok (fieldsFrom event (block.map Prod.fst))) ∨
      (¬ FitsFrom event.data block ∧ ∃ e, readBlock event block = .error e) := by
  induction block generalizing event with
  | nil => exact .inl ⟨⟨by simp,hdata⟩,rfl⟩
  | cons l block ih =>
    rw [readBlock,fitsFrom_cons]
    by_cases hsize : lineSize l > maxFrameBytes
    · rw [if_pos hsize]
      exact .inr ⟨fun h => absurd h.1 (by omega),_,rfl⟩
    rw [if_neg hsize,List.map_cons]
    have hfits : lineSize l ≤ maxFrameBytes := by omega
    simp only [hfits,true_and]
    by_cases hskip : l.1 = [] ∨ l.1.head? = some colon
    · have hfield := cutField_comment hskip
      have hdata' : ¬ (cutField l.1).1 = dataField := by rw [hfield]; decide
      have hevent' : ¬ (cutField l.1).1 = eventField := by rw [hfield]; decide
      rw [if_pos hskip,if_neg hdata',fieldsFrom_skip hevent' hdata']
      exact ih event hdata
    rw [if_neg hskip,readField]
    by_cases hevent : (cutField l.1).1 = eventField
    · have hne : ¬ (cutField l.1).1 = dataField := by rw [hevent]; decide
      rw [if_neg hne]
      simp only [hevent,if_true]
      have hfields : fieldsFrom event (l.1 :: block.map Prod.fst) =
          fieldsFrom { event with name := (cutField l.1).2 } (block.map Prod.fst) := by
        rw [fieldsFrom,fieldValues_cons_of_eq hevent,fieldValues_cons_of_ne hne,lastValue_cons]
        rfl
      rw [hfields]
      exact ih { event with name := (cutField l.1).2 } hdata
    · simp only [hevent,if_false]
      by_cases hd : (cutField l.1).1 = dataField
      · simp only [hd,if_true]
        obtain ⟨grown,hgrown⟩ : ∃ grown, grown =
            if event.data = [] then (cutField l.1).2 else event.data ++ lf :: (cutField l.1).2 :=
              ⟨_,rfl⟩
        have hfields : fieldsFrom event (l.1 :: block.map Prod.fst) =
            fieldsFrom { event with data := grown } (block.map Prod.fst) := by
          rw [fieldsFrom,fieldValues_cons_of_ne hevent,fieldValues_cons_of_eq hd,List.map_cons,
            hgrown]
          rfl
        rw [hfields,← hgrown]
        by_cases hlong : grown.length > maxEventBytes
        · rw [if_pos hlong]
          refine .inr ⟨?_,_,rfl⟩
          intro hfit
          have hle := le_joinData grown ((fieldValues dataField (block.map Prod.fst)).map Prod.fst)
          have := hfit.2
          omega
        · rw [if_neg hlong]
          exact ih { event with data := grown } (by dsimp only; omega)
      · rw [if_neg hd]
        simp only [hd,if_false]
        rw [fieldsFrom_skip hevent hd]
        exact ih event hdata

/-- The values that a colon comes before. -/
def colonValues (field : Bytes) (lines : List Bytes) : List Bytes :=
  ((fieldValues field lines).filter Prod.snd).map Prod.fst

lemma takeWhile_append_dropWhile_colon (line : Bytes) :
    (cutField line).1 ++ line.dropWhile (· ≠ colon) = line :=
  List.takeWhile_append_dropWhile

/-- A line that starts with a field and a colon. -/
lemma field_prefix_iff {field line : Bytes} (hfield : colon ∉ field) :
    (field ++ [colon]).isPrefixOf line = true ↔ (cutField line).1 = field ∧ colon ∈ line := by
  rw [List.isPrefixOf_iff_prefix]
  constructor
  · rintro ⟨rest,rfl⟩
    have hall : ∀ c ∈ field, decide (c ≠ colon) = true := by
      intro c hc
      rw [decide_eq_true_eq]
      rintro rfl
      exact hfield hc
    refine ⟨?_,by simp⟩
    rw [cutField,List.append_assoc,List.singleton_append]
    dsimp only
    rw [List.takeWhile_append_of_pos hall,List.takeWhile_cons_of_neg (by simp),List.append_nil]
  · rintro ⟨rfl,hmem⟩
    have hsplit := takeWhile_append_dropWhile_colon line
    cases hrest : line.dropWhile (· ≠ colon) with
    | nil =>
      rw [hrest,List.append_nil] at hsplit
      rw [← hsplit] at hmem
      exact absurd (List.mem_takeWhile_imp hmem) (by simp)
    | cons c rest =>
      have hc : c = colon := by
        have := List.head?_dropWhile_not (fun c => decide (c ≠ colon)) line
        rw [hrest] at this
        simpa using this
      rw [hrest,hc] at hsplit
      refine ⟨rest,?_⟩
      rw [List.append_assoc,List.singleton_append]
      exact hsplit

/-- What follows the colon, up to a space, is the line's value. -/
lemma cutField_value {field line : Bytes} (h : (cutField line).1 = field) :
    (cutField line).2 = if (line.drop (field.length+1)).head? = some 32 then
    (line.drop (field.length+1)).tail
      else line.drop (field.length+1) := by
  have hdrop : line.drop (field.length+1) = (line.dropWhile (· ≠ colon)).drop 1 := by
    have hsplit := takeWhile_append_dropWhile_colon line
    rw [h] at hsplit
    conv_lhs => rw [← hsplit]
    rw [List.drop_length_add_append]
  rw [hdrop]
  rfl

lemma trimSpace_value {field line : Bytes} (h : (cutField line).1 = field) :
    trimSpace (line.drop (field.length+1)) = trimSpace (cutField line).2 := by
  rw [cutField_value h]
  split_ifs with hspace
  · obtain ⟨tail,htail⟩ := List.head?_eq_some_iff.mp hspace
    rw [htail,trimSpace_cons]
    rfl
  · rfl

lemma colonValues_cons_of_ne {field line : Bytes} (h : ¬ ((cutField line).1 = field ∧ colon ∈ line))
    (lines : List Bytes) :
    (fieldValues field (line :: lines)).filter Prod.snd =
    (fieldValues field lines).filter Prod.snd := by
  by_cases hfield : (cutField line).1 = field
  · rw [fieldValues_cons_of_eq hfield,List.filter_cons_of_neg]
    simpa using fun hmem => h ⟨hfield,hmem⟩
  · rw [fieldValues_cons_of_ne hfield]

lemma colonValues_cons_of_eq {field line : Bytes} (h : (cutField line).1 = field ∧ colon ∈ line)
    (lines : List Bytes) :
    (fieldValues field (line :: lines)).filter Prod.snd =
      ((cutField line).2,true) :: (fieldValues field lines).filter Prod.snd := by
  rw [fieldValues_cons_of_eq h.1]
  simp [h.2]

lemma foldl_readFrameLine (lines : List Bytes) (name : Bytes) (parts : List Bytes) :
    lines.foldl readFrameLine (trimSpace name,parts) =
      (trimSpace (lastValue name ((fieldValues eventField lines).filter Prod.snd)),
        parts ++ colonValues dataField lines) := by
  induction lines generalizing name parts with
  | nil => simp [fieldValues,colonValues,lastValue]
  | cons line lines ih =>
    rw [List.foldl_cons,readFrameLine]
    have hcomment : [colon].isPrefixOf line = true → (cutField line).1 = [] := by
      intro h
      rw [List.isPrefixOf_iff_prefix] at h
      obtain ⟨tail,rfl⟩ := h
      exact cutField_comment (.inr rfl)
    have hevent : (eventField ++ [colon]).isPrefixOf line = true ↔ (cutField line).1 = eventField ∧
      colon ∈ line :=
      field_prefix_iff (by decide)
    have hdata : (dataField ++ [colon]).isPrefixOf line = true ↔ (cutField line).1 = dataField ∧
      colon ∈ line :=
      field_prefix_iff (by decide)
    unfold colonValues
    by_cases he : (cutField line).1 = eventField ∧ colon ∈ line
    · have hc : ¬ [colon].isPrefixOf line = true := by
        intro h
        rw [hcomment h] at he
        exact absurd he.1 (by decide)
      have hd : ¬ ((cutField line).1 = dataField ∧ colon ∈ line) := by
        rw [he.1]
        exact fun h => absurd h.1 (by decide)
      rw [if_neg hc,if_pos (hevent.mpr he),colonValues_cons_of_eq he,colonValues_cons_of_ne hd,
        lastValue_cons]
      have hvalue := trimSpace_value he.1
      dsimp only
      rw [show line.drop 6 = line.drop (eventField.length+1) from rfl,hvalue]
      exact ih _ _
    rw [colonValues_cons_of_ne he]
    by_cases hd : (cutField line).1 = dataField ∧ colon ∈ line
    · have hc : ¬ [colon].isPrefixOf line = true := by
        intro h
        rw [hcomment h] at hd
        exact absurd hd.1 (by decide)
      rw [if_neg hc,if_neg (fun h => he (hevent.mp h)),if_pos (hdata.mpr hd),
        colonValues_cons_of_eq hd]
      have hvalue := cutField_value hd.1
      rw [show dataField.length+1 = 5 from rfl] at hvalue
      dsimp only
      rw [← hvalue,ih,List.map_cons,List.append_assoc,List.singleton_append]
      rfl
    · rw [colonValues_cons_of_ne hd,if_neg (fun h => he (hevent.mp h)),
        if_neg (fun h => hd (hdata.mp h)),ite_self]
      exact ih _ _

/-- The fields of a frame, from the values of its lines. -/
lemma lineFields_eq (lines : List Bytes) : lineFields lines =
    ⟨trimSpace (lastValue [] ((fieldValues eventField lines).filter Prod.snd)),
      [lf].intercalate (colonValues dataField lines)⟩ := by
  have hfold := foldl_readFrameLine lines [] []
  rw [trimSpace_nil,List.nil_append] at hfold
  rw [lineFields,hfold]

/-! When a block's fields agree. -/

/-- The last name of a block has a colon and no white space around it; a last name without a colon
only takes back a blank one. -/
def NameAgrees (lines : List Bytes) : Prop :=
  match (fieldValues eventField lines).getLast? with
  | none => True
  | some (value,true) => trimSpace value = value
  | some (_,false) => trimSpace (lastValue [] ((fieldValues eventField lines).filter Prod.snd)) = []

/-- Data lines without a value and a colon stand before the first that has a value, data lines with
a colon after it; when none has a value, at most one has a colon. -/
def DataAgrees (lines : List Bytes) : Prop :=
  let values := fieldValues dataField lines
  if values.all (fun v => v.1 = []) then (values.filter Prod.snd).length ≤ 1
  else (∀ v ∈ values.takeWhile (fun v => v.1 = []), v.2 = false) ∧
    ∀ v ∈ values.dropWhile (fun v => v.1 = []), v.2 = true

/-- A block in which the preflight finds neither a name nor data. -/
def Silent (lines : List Bytes) : Prop :=
  trimSpace (lastValue [] ((fieldValues eventField lines).filter Prod.snd)) = [] ∧
    (colonValues dataField lines = [] ∨ colonValues dataField lines = [[]])

/-- A value that no colon comes before is empty. -/
lemma fieldValues_bare {field : Bytes} {lines : List Bytes} {v : Bytes × Bool}
    (h : v ∈ fieldValues field lines)
    (hv : v.2 = false) : v.1 = [] := by
  obtain ⟨line,_,hline⟩ := List.mem_filterMap.mp h
  split_ifs at hline with hfield
  cases hline
  have hmem : colon ∉ line := by simpa using hv
  have hdrop : line.dropWhile (· ≠ colon) = [] := by
    rw [List.dropWhile_eq_nil_iff]
    intro c hc
    rw [decide_eq_true_eq]
    rintro rfl
    exact hmem hc
  rw [cutField]
  dsimp only
  rw [hdrop]
  rfl

lemma nameAgrees_iff (lines : List Bytes) : NameAgrees lines ↔
    lastValue [] (fieldValues eventField lines) =
      trimSpace (lastValue [] ((fieldValues eventField lines).filter Prod.snd)) := by
  unfold NameAgrees
  cases hlast : (fieldValues eventField lines).getLast? with
  | none =>
    rw [List.getLast?_eq_none_iff] at hlast
    rw [hlast]
    exact iff_of_true trivial rfl
  | some v =>
    obtain ⟨init,hinit⟩ := List.getLast?_eq_some_iff.mp hlast
    have hvalue : lastValue [] (fieldValues eventField lines) = v.1 := by
      rw [lastValue,hlast]
      rfl
    rw [hvalue]
    obtain ⟨value,found⟩ := v
    cases found with
    | true =>
      have hfilter : lastValue [] ((fieldValues eventField lines).filter Prod.snd) = value := by
        rw [hinit,lastValue]
        simp
      rw [hfilter]
      exact eq_comm
    | false =>
      have hempty : value = [] := fieldValues_bare (v := (value,false)) (by rw [hinit]; simp) rfl
      rw [hempty]
      exact eq_comm

/-- Joined data are the lines from the first that has a value. -/
lemma joinData_eq (values : List Bytes) :
    joinData [] values = [lf].intercalate (values.dropWhile (· = [])) := by
  have hmore : ∀ (values : List Bytes) (data : Bytes), data ≠ [] →
      joinData data values = [lf].intercalate (data :: values) := by
    intro values
    induction values with
    | nil =>
      intro data _
      rw [List.intercalate_singleton]
      rfl
    | cons v values ih =>
      intro data hdata
      have hstep : joinData data (v :: values) = joinData (data ++ lf :: v) values := by
        rw [joinData,List.foldl_cons,if_neg hdata]
        rfl
      rw [hstep,ih _ (by simp),List.intercalate_cons_cons]
      cases values with
      | nil => simp
      | cons w values => simp
  induction values with
  | nil => rfl
  | cons v values ih =>
    have hstep : joinData [] (v :: values) = joinData v values := rfl
    by_cases hv : v = []
    · rw [hstep,hv,ih,List.dropWhile_cons_of_pos (by simp)]
    · rw [hstep,hmore values v hv,List.dropWhile_cons_of_neg (by simpa using hv)]

/-- Lines have no LF in their values. -/
def Plain (lines : List Bytes) : Prop := ∀ line ∈ lines, lf ∉ line

lemma fieldValues_plain {field : Bytes} {lines : List Bytes} (h : Plain lines) {v : Bytes × Bool}
    (hv : v ∈ fieldValues field lines) : lf ∉ v.1 := by
  obtain ⟨line,hmem,hline⟩ := List.mem_filterMap.mp hv
  split_ifs at hline with hfield
  cases hline
  intro hlf
  apply h line hmem
  rw [cutField_value hfield] at hlf
  split_ifs at hlf
  · exact List.mem_of_mem_drop (List.mem_of_mem_tail hlf)
  · exact List.mem_of_mem_drop hlf

/-- Joined lines can be told apart, but for one empty line and none. -/
lemma intercalate_inj {a b : List Bytes} (ha : ∀ x ∈ a, lf ∉ x) (hb : ∀ x ∈ b, lf ∉ x)
    (hna : a ≠ []) (hnb : b ≠ [])
    (h : [lf].intercalate a = [lf].intercalate b) : a = b := by
  rw [← List.splitOn_intercalate lf ha hna,h,List.splitOn_intercalate lf hb hnb]

lemma intercalate_eq_nil_iff {a : List Bytes} : [lf].intercalate a = [] ↔ a = [] ∨ a = [[]] := by
  cases a with
  | nil => simp
  | cons x a =>
    cases a with
    | nil => simp [List.intercalate_singleton]
    | cons y a => simp [List.intercalate_cons_cons]

section
variable {values : List (Bytes × Bool)}

/-- Values that are all empty. -/
lemma agree_of_empty (hall : ∀ v ∈ values, v.1 = []) :
    joinData [] (values.map Prod.fst) = [lf].intercalate ((values.filter Prod.snd).map Prod.fst) ↔
      (values.filter Prod.snd).length ≤ 1 := by
  have hdrop : (values.map Prod.fst).dropWhile (· = []) = [] := by
    rw [List.dropWhile_eq_nil_iff]
    intro v hv
    obtain ⟨w,hw,rfl⟩ := List.mem_map.mp hv
    simpa using hall w hw
  rw [joinData_eq,hdrop,List.intercalate_nil,eq_comm,intercalate_eq_nil_iff]
  have hempty : ∀ v ∈ values.filter Prod.snd, v.1 = [] :=
    fun v hv => hall v (List.mem_of_mem_filter hv)
  cases hf : values.filter Prod.snd with
  | nil => simp
  | cons v rest =>
    have hv : v.1 = [] := hempty v (by rw [hf]; exact List.mem_cons_self)
    cases rest with
    | nil => simp [hv]
    | cons w rest => simp

/-- Values of which one is not empty. -/
lemma agree_of_some (hplain : ∀ v ∈ values, lf ∉ v.1) (hbare : ∀ v ∈ values, v.2 = false → v.1 = [])
    (hsome : ¬ ∀ v ∈ values, v.1 = []) :
    joinData [] (values.map Prod.fst) = [lf].intercalate ((values.filter Prod.snd).map Prod.fst) ↔
      (∀ v ∈ values.takeWhile (fun v => v.1 = []), v.2 = false) ∧
        ∀ v ∈ values.dropWhile (fun v => v.1 = []), v.2 = true := by
  obtain ⟨pre,hpre⟩ : ∃ pre, pre = values.takeWhile (fun v => v.1 = []) := ⟨_,rfl⟩
  obtain ⟨post,hpost⟩ : ∃ post, post = values.dropWhile (fun v => v.1 = []) := ⟨_,rfl⟩
  have hsplit : pre ++ post = values := by
    rw [hpre,hpost]
    exact List.takeWhile_append_dropWhile
  have hempty : ∀ v ∈ pre, v.1 = [] := by
    intro v hv
    rw [hpre] at hv
    simpa using List.mem_takeWhile_imp hv
  have hdrop : (values.map Prod.fst).dropWhile (· = []) = post.map Prod.fst := by
    rw [List.dropWhile_map,hpost]
    rfl
  have hhead : ∃ v rest, post = v :: rest ∧ v.1 ≠ [] := by
    cases hcases : post with
    | nil =>
      exfalso
      apply hsome
      rw [← hsplit,hcases,List.append_nil]
      exact hempty
    | cons v rest =>
      refine ⟨v,rest,rfl,?_⟩
      have hnot := List.head?_dropWhile_not (fun v : Bytes × Bool => decide (v.1 = [])) values
      rw [← hpost,hcases] at hnot
      simpa using hnot
  obtain ⟨v,rest,hcons,hv⟩ := hhead
  have hmem : v ∈ values := by
    rw [← hsplit,hcons]
    simp
  have hcolon : v.2 = true := by
    by_contra hfalse
    exact hv (hbare v hmem (by simpa using hfalse))
  have hne : (values.filter Prod.snd).map Prod.fst ≠ [] := by
    intro hnil
    have hin : v ∈ values.filter Prod.snd := List.mem_filter.mpr ⟨hmem,hcolon⟩
    rw [List.map_eq_nil_iff.mp hnil] at hin
    cases hin
  rw [joinData_eq,hdrop,← hpre,← hpost]
  constructor
  · intro heq
    have hlists : post.map Prod.fst = (values.filter Prod.snd).map Prod.fst := by
      apply intercalate_inj _ _ _ hne heq
      · intro x hx
        obtain ⟨w,hw,rfl⟩ := List.mem_map.mp hx
        exact hplain w (hsplit ▸ List.mem_append_right _ hw)
      · intro x hx
        obtain ⟨w,hw,rfl⟩ := List.mem_map.mp hx
        exact hplain w (List.mem_of_mem_filter hw)
      · rw [hcons]
        simp
    rw [← hsplit,List.filter_append] at hlists
    have hnone : pre.filter Prod.snd = [] := by
      cases hp : pre.filter Prod.snd with
      | nil => rfl
      | cons w ws =>
        rw [hp,hcons] at hlists
        have hw : v.1 = w.1 := by simpa using (List.cons.inj hlists).1
        exact absurd (hw.trans (hempty w (List.mem_of_mem_filter (hp ▸ List.mem_cons_self)))) hv
    refine ⟨?_,?_⟩
    · intro w hw
      simpa using List.filter_eq_nil_iff.mp hnone w hw
    · rw [hnone,List.nil_append] at hlists
      have hlength := congrArg List.length hlists
      rw [List.length_map,List.length_map] at hlength
      exact List.length_filter_eq_length_iff.mp hlength.symm
  · rintro ⟨hbefore,hafter⟩
    have hnone : pre.filter Prod.snd = [] := by
      rw [List.filter_eq_nil_iff]
      intro w hw
      simpa using hbefore w hw
    rw [← hsplit,List.filter_append,hnone,List.nil_append,List.filter_eq_self.mpr hafter]

end

lemma dataAgrees_iff {lines : List Bytes} (h : Plain lines) : DataAgrees lines ↔
    joinData [] ((fieldValues dataField lines).map Prod.fst) = [lf].intercalate
    (colonValues dataField lines) := by
  unfold DataAgrees colonValues
  dsimp only
  by_cases hall : ∀ v ∈ fieldValues dataField lines, v.1 = []
  · rw [if_pos (by simpa using hall),agree_of_empty hall]
  · rw [if_neg (by simpa using hall),
      agree_of_some (fun v => fieldValues_plain h) (fun v => fieldValues_bare) hall]

/-- The stream reader and the preflight find the same in a block. -/
lemma fields_agree_iff {lines : List Bytes} (h : Plain lines) :
    fieldsFrom ⟨[],[]⟩ lines = lineFields lines ↔ NameAgrees lines ∧ DataAgrees lines := by
  rw [fieldsFrom,lineFields_eq,Event.mk.injEq,nameAgrees_iff,dataAgrees_iff h]

lemma silent_iff (lines : List Bytes) : lineFields lines = ⟨[],[]⟩ ↔ Silent lines := by
  rw [lineFields_eq,Event.mk.injEq,intercalate_eq_nil_iff]
  rfl

lemma lastValue_colon_or_nil (field : Bytes) (lines : List Bytes) :
    lastValue [] (fieldValues field lines) = lastValue []
    ((fieldValues field lines).filter Prod.snd) ∨
      lastValue [] (fieldValues field lines) = [] := by
  cases hlast : (fieldValues field lines).getLast? with
  | none =>
    right
    rw [lastValue,hlast]
    rfl
  | some v =>
    obtain ⟨init,hinit⟩ := List.getLast?_eq_some_iff.mp hlast
    obtain ⟨value,found⟩ := v
    cases found with
    | true =>
      left
      rw [hinit,lastValue,lastValue]
      simp
    | false =>
      right
      rw [lastValue,hlast]
      exact fieldValues_bare (v := (value,false)) (List.mem_of_mem_getLast? hlast) rfl

/-- What only the stream reader finds is a name of white space. -/
lemma fieldsFrom_of_silent {lines : List Bytes} (h : Silent lines) :
    trimSpace (fieldsFrom ⟨[],[]⟩ lines).name = [] ∧ (fieldsFrom ⟨[],[]⟩ lines).data = [] := by
  constructor
  · change trimSpace (lastValue [] (fieldValues eventField lines)) = []
    rcases lastValue_colon_or_nil eventField lines with heq | hnil
    · rw [heq]
      exact h.1
    · rw [hnil]
      rfl
  · change joinData [] ((fieldValues dataField lines).map Prod.fst) = []
    have hall : ∀ v ∈ (fieldValues dataField lines).map Prod.fst, decide (v = []) = true := by
      intro v hv
      obtain ⟨w,hw,rfl⟩ := List.mem_map.mp hv
      rw [decide_eq_true_eq]
      by_contra hne
      have hcolon : w.2 = true := by
        by_contra hfalse
        exact hne (fieldValues_bare hw (by simpa using hfalse))
      have hin : w.1 ∈ colonValues dataField lines :=
        List.mem_map.mpr ⟨w,List.mem_filter.mpr ⟨hw,hcolon⟩,rfl⟩
      rcases h.2 with hnil | hone
      · rw [hnil] at hin
        cases hin
      · rw [hone,List.mem_singleton] at hin
        exact hne hin
    rw [joinData_eq,List.dropWhile_eq_nil_iff.mpr hall]
    rfl

end Manvi.Transport
