import Manvi.Agent.Elided
import Manvi.Harness.Estimate

/-! What a cut leaves out of a text, against the notice that is put in its place. -/
namespace Manvi.Agent
open Manvi.Harness

/-- The lines between the ends that are kept, with the line feeds between them and what follows. -/
def LineCut.between (lines : List String) (c : LineCut) : String :=
  let middle := (lines.drop c.head.length).take c.omitted
  if c.tail = [] then "\n".intercalate middle else String.join (middle.map (· ++ "\n"))

/-- What is left out of a text, what stands before it, and the number that the notice in its place
gives. -/
structure LeftOut where
  before : String
  out : String
  number : ℕ

/-- What shortening leaves out of a text over the floor. -/
def leftOut (text : String) (floor : ℤ) : LeftOut :=
  if 8 ≤ (textLines text).length ∧ EndFits (textLines text) floor then
    let c := lineCut (textLines text) floor
    ⟨String.join (c.head.map (· ++ "\n")),c.between (textLines text),c.omitted⟩
  else ⟨keptRunes text floor,String.ofList (restRunes text floor),0⟩

/-- What the estimator counts for a text that it reads after another. -/
def countedAfter (before text : String) : ℕ :=
  ((bytes (before ++ text)).foldl TokenScan.step start).tokens-
  ((bytes before).foldl TokenScan.step start).tokens

/-- What a notice counts for, with its line feed. -/
def noticeTokens (number : ℕ) : ℕ := estimateTokens (compactionMarker number)+1

/-- How much more what is left out of a text counts for than the notice in its place. -/
def cutWorth (text : String) (floor : ℤ) : ℤ :=
  countedAfter (leftOut text floor).before (leftOut text floor).out-noticeTokens
  (leftOut text floor).number

/-! Scans. -/

/-- The tokens that a scan of a text counts. -/
def scanned (text : String) : ℕ := ((bytes text).foldl TokenScan.step start).tokens

@[simp] lemma bytes_append (a b : String) : bytes (a ++ b) = bytes a ++ bytes b := by
  show (a ++ b).toByteArray.data.toList = a.toByteArray.data.toList ++ b.toByteArray.data.toList
  rw [String.toByteArray_append,ByteArray.data_append,Array.toList_append]

lemma bytes_feed : bytes "\n" = [10] := by decide

lemma countedAfter_add (before text : String) :
    scanned before+countedAfter before text = scanned (before ++ text) := by
  have hle := tokens_le_scan ((bytes before).foldl TokenScan.step start) (bytes text)
  rw [← List.foldl_append,← bytes_append] at hle
  unfold countedAfter scanned
  omega

/-- A line feed separates what is counted before it and from it on. -/
lemma scanned_feed (a b : String) : scanned (a ++ "\n" ++ b) = scanned a+1+scanned b := by
  unfold scanned
  rw [bytes_append,bytes_append,bytes_feed,List.append_assoc,List.foldl_append,
    List.singleton_append,List.foldl_cons,
    step_newline,scan_fresh rfl rfl]

@[simp] lemma scanned_empty : scanned "" = 0 := rfl

/-- Lines with their line feeds count alone. -/
lemma scanned_lines (ls : List String) (b : String) :
    scanned (String.join (ls.map (· ++ "\n")) ++
      b) = scanned (String.join (ls.map (· ++ "\n")))+scanned b := by
  induction ls with
  | nil =>
    rw [List.map_nil,String.join_nil,String.empty_append,scanned_empty,Nat.zero_add]
  | cons l ls ih =>
    rw [List.map_cons,String.join_cons,String.append_assoc,scanned_feed,ih,scanned_feed]
    omega

/-- A scan that counts nothing read fewer than four bytes, spaces all. -/
lemma scan_quiet (text : List UInt8) (h : (text.foldl TokenScan.step start).tokens = 0) :
    (text.foldl TokenScan.step start).inWord = false ∧
    (text.foldl TokenScan.step start).spaceRun = text.length ∧
      text.length < 4 := by
  induction text using List.reverseRecOn with
  | nil => exact ⟨rfl,rfl,by decide⟩
  | append_singleton text b ih =>
    rw [List.foldl_append,List.foldl_cons,List.foldl_nil] at h ⊢
    have hle := tokens_le_step (text.foldl TokenScan.step start) b
    obtain ⟨hword,hrun,hlen⟩ := ih (by omega)
    generalize text.foldl TokenScan.step start = s at h hword hrun ⊢
    unfold TokenScan.step at h ⊢
    rw [List.length_append,List.length_singleton]
    split at h
    next hspace =>
      rw [if_pos hspace]
      split at h
      next => exact absurd h (Nat.succ_ne_zero _)
      next hfour =>
        rw [if_neg hfour]
        exact ⟨rfl,by simp only; omega,by omega⟩
    next hspace =>
      split at h
      next => exact absurd h (Nat.succ_ne_zero _)
      next =>
        split at h
        next =>
          rw [hword] at h
          exact absurd h (Nat.succ_ne_zero _)
        next => exact absurd h (Nat.succ_ne_zero _)

@[simp] lemma length_bytes (text : String) : (bytes text).length = size text := rfl

/-- From four bytes on, the estimate is what is counted. -/
lemma estimateTokens_scanned {text : String} (h : 4 ≤ size text) :
    estimateTokens text = scanned text := by
  have hne : text ≠ "" := by
    rintro rfl
    exact absurd h (by decide)
  have hpos : scanned text ≠ 0 := by
    intro hzero
    have hlen := (scan_quiet _ hzero).2.2
    rw [length_bytes] at hlen
    omega
  rw [estimateTokens,if_neg hne]
  show max (scanned text) 1 = _
  omega

lemma estimateTokens_marker (n : ℕ) :
    estimateTokens (compactionMarker n) = scanned (compactionMarker n) :=
  estimateTokens_scanned (by rw [size_marker]; omega)

/-! Cuts. -/

/-- Lines with their line feeds are the lines with line feeds between them, and one more. -/
lemma join_feeds {ls : List String} (h : ls ≠ []) :
    String.join (ls.map (· ++ "\n")) = "\n".intercalate ls ++ "\n" := by
  induction ls with
  | nil => exact (h rfl).elim
  | cons l ls ih =>
    by_cases hnil : ls = []
    · subst hnil
      rw [String.intercalate_singleton,List.map_cons,String.join_cons,List.map_nil,String.join_nil,
        String.append_empty]
    · rw [List.map_cons,String.join_cons,ih hnil,String.intercalate_cons_of_ne_nil hnil]
      simp only [String.append_assoc]

lemma intercalate_lines (as : List String) {bs : List String} (h : bs ≠ []) :
    "\n".intercalate (as ++ bs) = String.join (as.map (· ++ "\n")) ++ "\n".intercalate bs := by
  induction as with
  | nil => rw [List.nil_append,List.map_nil,String.join_nil,String.empty_append]
  | cons a as ih =>
    rw [List.cons_append,String.intercalate_cons_of_ne_nil (by simp [h]),ih,List.map_cons,
      String.join_cons]
    simp only [String.append_assoc]

lemma intercalate_textLines (text : String) : "\n".intercalate (textLines text) = text := by
  have hjoin := join_textLines text
  rw [join_feeds (textLines_ne_nil text)] at hjoin
  have hlist := congrArg String.toList hjoin
  rw [String.toList_append,String.toList_append] at hlist
  exact String.toList_injective (List.append_cancel_right hlist)

/-- What a cut by lines takes off the count. -/
lemma scanned_render {text : String} {floor : ℤ}
    (homits : 0 < (lineCut (textLines text) floor).omitted) :
    (scanned text : ℤ)-scanned (lineCut (textLines text) floor).render =
      countedAfter (String.join ((lineCut (textLines text) floor).head.map (· ++ "\n")))
        ((lineCut (textLines text) floor).between (textLines text))-
          noticeTokens (lineCut (textLines text) floor).omitted := by
  obtain ⟨middle,hsplit,hlen⟩ := lineCut_split (textLines text) floor
  have hmiddle : ((textLines text).drop (lineCut (textLines text) floor).head.length).take
      (lineCut (textLines text) floor).omitted = middle := by
    have hdrop := congrArg (List.drop (lineCut (textLines text) floor).head.length) hsplit
    rw [List.append_assoc,List.drop_left] at hdrop
    rw [hdrop,← hlen,List.take_left]
  have htext := intercalate_textLines text
  have hne : middle ≠ [] := by
    rintro rfl
    rw [← hlen] at homits
    exact absurd homits (by decide)
  unfold LineCut.between LineCut.render noticeTokens
  rw [estimateTokens_marker]
  dsimp only
  rw [hmiddle]
  generalize (lineCut (textLines text) floor).head = head at hsplit ⊢
  generalize (lineCut (textLines text) floor).tail = tail at hsplit ⊢
  generalize (lineCut (textLines text) floor).omitted = n
  have hout := countedAfter_add (String.join (head.map (· ++ "\n")))
  have hfeed := scanned_feed (String.join (head.map (· ++ "\n")) ++
    compactionMarker n) ("\n".intercalate tail)
  rw [scanned_lines head] at hfeed
  rw [hfeed]
  by_cases htail : tail = []
  · rw [htail,List.append_nil] at hsplit
    rw [hsplit,intercalate_lines head hne] at htext
    rw [if_pos htail,htail]
    have hcount := hout ("\n".intercalate middle)
    rw [htext] at hcount
    have hnone : scanned ("\n".intercalate []) = 0 := rfl
    omega
  · rw [hsplit,List.append_assoc,intercalate_lines head (by simp [hne]),
      intercalate_lines middle htail] at htext
    rw [if_neg htail]
    have hcount := hout (String.join (middle.map (· ++ "\n")))
    rw [scanned_lines head] at hcount
    have hwhole : scanned text = scanned (String.join (head.map (· ++ "\n")))+
        (scanned (String.join (middle.map (· ++ "\n")))+scanned ("\n".intercalate tail)) := by
      rw [← htext,scanned_lines head,scanned_lines middle]
    omega

/-- A shortened text counts for less by what is left out, and for more by the notice. -/
theorem estimate_cut {text : String} {floor : ℤ}
    (hshort : size (compactToolResultText text floor) < size text) :
    (estimateTokens text : ℤ)-estimateTokens
    (compactToolResultText text floor) = cutWorth text floor := by
  have hpos : 0 < floor ∧ floor < size text := by
    by_contra hnot
    unfold compactToolResultText at hshort
    rw [if_pos (by omega)] at hshort
    exact lt_irrefl _ hshort
  have hout := compactToolResultText_over hpos.1 hpos.2
  unfold cutWorth leftOut
  by_cases hlines : 8 ≤ (textLines text).length ∧ EndFits (textLines text) floor
  · rw [if_pos hlines] at hout ⊢
    rw [hout] at hshort ⊢
    have hfour : 4 ≤ size (lineCut (textLines text) floor).render := by
      rw [LineCut.render,size_append,size_append,size_append,size_marker]
      omega
    rw [estimateTokens_scanned hfour,estimateTokens_scanned (by omega)]
    exact scanned_render (lineCut_omits (by rw [width_textLines]; omega) hlines.2)
  · rw [if_neg hlines] at hout ⊢
    split at hout
    next =>
      rw [hout] at hshort
      exact absurd hshort (lt_irrefl _)
    next =>
      rw [hout] at hshort ⊢
      have hfour := size_runeCut text floor
      have hsplit : keptRunes text floor ++ String.ofList (restRunes text floor) = text := by
        unfold keptRunes restRunes
        rw [← String.ofList_append,List.take_append_drop,String.ofList_toList]
      have hcount := countedAfter_add (keptRunes text floor) (String.ofList (restRunes text floor))
      rw [hsplit] at hcount
      rw [estimateTokens_scanned (by omega : 4 ≤ size (runeCut text floor)),
        estimateTokens_scanned (by omega),runeCut,
        scanned_feed]
      unfold noticeTokens
      rw [estimateTokens_marker]
      dsimp only
      push_cast
      omega

end Manvi.Agent
