import Manvi.DevCouncil.Patches

/-! The scan of a patch follows git's rendering line by line, and just the names it cannot unquote
are read wrong. -/
namespace Manvi.DevCouncil
open Manvi.Encoding
open Manvi.Computer (digitBytes decimalValue digits_digitBytes decimalValue_digitBytes digits_iff)

section names
variable {quotePath : Bool} {name label : Bytes}

/-- The path that is read for a name: one in quotes without core.quotePath is read as characters. -/
def readName (quotePath : Bool) (name : Bytes) : Bytes :=
  if quotePath = false ∧ needsQuote false name = true then utf8Bytes (runes name) else name

lemma utf8Bytes_runes_iff : utf8Bytes (runes name) = name ↔ IsUtf8 name := by
  constructor
  · exact fun h => ⟨_,h.symm⟩
  · rintro ⟨cs,rfl⟩
    rw [runes_utf8Bytes]

lemma readName_eq_iff : readName quotePath name = name ↔
    (quotePath = false → needsQuote false name = true → IsUtf8 name) := by
  unfold readName
  by_cases h : quotePath = false ∧ needsQuote false name = true
  · rw [if_pos h,utf8Bytes_runes_iff]
    exact ⟨fun hu _ _ => hu,fun hu => hu h.1 h.2⟩
  · rw [if_neg h]
    exact ⟨fun _ hq hn => (h ⟨hq,hn⟩).elim,fun _ => rfl⟩

lemma escaped_no_line (quotePath : Bool) : ∀ c : UInt8, 10 ∉ (cEscaped quotePath c).getD [c] := by
  cases quotePath with
  | false => exact forall_byte (by decide)
  | true => exact forall_byte (by decide)

lemma escapedName_no_line (quotePath : Bool) (name : Bytes) : 10 ∉ escapedName quotePath name := by
  intro h
  obtain ⟨c,_,hc⟩ := List.mem_flatMap.mp h
  exact escaped_no_line quotePath c hc

lemma not_mem_of_plain {x : UInt8} (hx : (cEscaped quotePath x).isSome = true)
    (h : ¬ needsQuote quotePath name = true) : x ∉ name := by
  intro hmem
  exact h (List.any_eq_true.mpr ⟨x,hmem,hx⟩)

lemma escaped_controls (quotePath : Bool) :
    (cEscaped quotePath 10).isSome = true ∧ (cEscaped quotePath 9).isSome = true := by
  cases quotePath with
  | false => decide
  | true => decide

lemma nameLabel_no_line {side : Bytes} (hside : 10 ∉ side) :
    10 ∉ nameLabel quotePath side name := by
  unfold nameLabel
  split_ifs with h
  · simp only [List.mem_cons,List.mem_append,List.not_mem_nil,or_false,not_or]
    exact ⟨by decide,escapedName_no_line _ _,by decide⟩
  · rw [List.mem_append,not_or]
    exact ⟨hside,not_mem_of_plain (escaped_controls quotePath).1 h⟩

/-- The tab is cut off again. -/
lemma unquotePatchName_withTab (h : label.getLast? ≠ some 9) :
    unquotePatchName (withTab label) = if label.head? = some 34 then
    unquote label else some label := by
  unfold unquotePatchName withTab
  by_cases hspace : 32 ∈ label
  · rw [if_pos hspace,if_pos List.getLast?_concat,List.dropLast_concat]
  · rw [if_neg hspace,if_neg h]

lemma length_escapedName (quotePath : Bool) (name : Bytes) :
    name.length ≤ (escapedName quotePath name).length := by
  induction name with
  | nil => exact le_rfl
  | cons c name ih =>
    have hpos : 1 ≤ ((cEscaped quotePath c).getD [c]).length := by
      cases he : cEscaped quotePath c with
      | none => exact le_rfl
      | some e =>
        obtain ⟨t,rfl,_⟩ := unescape_escaped he []
        simp
    rw [escapedName_cons,List.length_append,List.length_cons]
    omega

lemma runes_side (name : Bytes) :
    utf8Bytes (runes (ascii "b/" ++ name)) = ascii "b/" ++ utf8Bytes (runes name) := by
  have hb : ascii "b/" ++ name = String.utf8EncodeChar 'b' ++
    (String.utf8EncodeChar '/' ++ name) := rfl
  rw [hb,runes_encode,runes_encode]
  rfl

/-- A name in quotes is read as the scan reads names. -/
lemma unquote_label (h : needsQuote quotePath name = true) :
    unquote (34 :: (escapedName quotePath (ascii "b/" ++ name) ++ [34])) = some (ascii "b/" ++
      readName quotePath name) := by
  have hlen := length_escapedName quotePath (ascii "b/" ++ name)
  have hfuel : (ascii "b/" ++ name).length <
      (escapedName quotePath (ascii "b/" ++ name) ++ [34]).length+1 := by
    simp only [List.length_append,List.length_singleton] at hlen ⊢
    omega
  rw [unquote,if_pos rfl,readName]
  cases quotePath with
  | true => rw [unquoteBody_full hfuel,if_neg (by simp)]
  | false => rw [unquoteBody_raw hfuel,if_pos ⟨rfl,h⟩,runes_side]

lemma plusPath_label (quotePath : Bool) (name : Bytes) :
    plusPath (withTab (nameLabel quotePath (ascii "b/") name)) = some
    (readName quotePath name) := by
  have hname : ∀ n : Bytes, ¬ ascii "b/" ++ n = ascii "/dev/null" := fun n h => by
    have := (List.cons.inj h).1
    exact absurd this (by decide)
  have hread : unquotePatchName (withTab (nameLabel quotePath (ascii "b/") name)) = some
    (ascii "b/" ++ readName quotePath name) := by
    unfold nameLabel
    by_cases h : needsQuote quotePath name = true
    · rw [if_pos h,
        unquotePatchName_withTab (by rw [← List.cons_append,List.getLast?_concat]; decide),
        List.head?_cons,if_pos rfl,unquote_label h]
    · have htab := not_mem_of_plain (escaped_controls quotePath).2 h
      have hlast : (ascii "b/" ++ name).getLast? ≠ some 9 := by
        intro hlast
        have hmem := List.mem_of_getLast? hlast
        rw [List.mem_append] at hmem
        exact hmem.elim (by decide) htab
      have hplain : readName quotePath name = name := by
        refine if_neg ?_
        rintro ⟨rfl,hq⟩
        exact h hq
      rw [if_neg h,unquotePatchName_withTab hlast,
        if_neg (by simp [show ascii "b/" = [98,47] from rfl]),hplain]
  rw [plusPath,hread]
  dsimp only
  rw [if_neg (hname _),if_pos (List.prefix_append _ _)]
  rfl

end names

section lines
variable {s s' s'' : PatchScan} {ls ls' : List Bytes} {visits visits' : List (Bytes × Bytes)}
    {l : Bytes} {path : Option Bytes}

/-- Some lines are read, whatever follows them. -/
def PatchScan.Reads (s : PatchScan) (ls : List Bytes) (visits : List (Bytes × Bytes))
    (s' : PatchScan) : Prop :=
  ∀ rest, s.lines (ls ++ rest) = (visits ++ (s'.lines rest).1,(s'.lines rest).2)

lemma reads_nil (s : PatchScan) : s.Reads [] [] s := fun _ => rfl

lemma reads_one (h : s.line l = .ok (visits,s')) : s.Reads [l] visits s' := by
  intro rest
  rw [List.singleton_append,PatchScan.lines,h]

lemma PatchScan.Reads.append (h : s.Reads ls visits s') (h' : s'.Reads ls' visits' s'') :
    s.Reads (ls ++ ls') (visits ++ visits') s'' := by
  intro rest
  rw [List.append_assoc,h,h',List.append_assoc]

lemma PatchScan.Reads.cons (h : s.line l = .ok (visits,s')) (h' : s'.Reads ls visits' s'') :
    s.Reads (l :: ls) (visits ++ visits') s'' :=
  (reads_one h).append h'

/-- Between hunks, in a file with this path. -/
def idle (path : Option Bytes) : PatchScan := ⟨path,0,0⟩

lemma line_idle (path : Option Bytes) (l : Bytes) :
    (idle path).line l = ((idle path).headerLine l).map (fun s => ([],s)) :=
  if_neg (by simp [idle])

/-- A line between hunks that is no header of a file or a hunk. -/
def Other (l : Bytes) : Prop := ¬ ascii "diff --git " <+: l ∧ ¬ ascii "+++ " <+: l ∧
    ¬ ascii "@@" <+: l

lemma line_other (h : Other l) : (idle path).line l = .ok ([],idle path) := by
  rw [line_idle,PatchScan.headerLine,if_neg h.1,if_neg h.2.1,if_neg h.2.2]
  rfl

/-- Two texts with other first bytes. -/
lemma not_prefix_of_head {a : Bytes} {x y : UInt8} (h : x ≠ y) : ¬ x :: a <+: y :: l :=
    fun hp => h (List.cons_prefix_cons.mp hp).1

lemma other_of_head {x : UInt8} (hd : x ≠ 100) (hp : x ≠ 43) (ha : x ≠ 64) (l : Bytes) :
    Other (x :: l) :=
  ⟨not_prefix_of_head hd.symm,not_prefix_of_head hp.symm,not_prefix_of_head ha.symm⟩

lemma other_nil : Other [] := ⟨by decide,by decide,by decide⟩

lemma other_extended (e : ExtendedHeader) : Other e.render := by
  cases e with
  | oldMode m => exact other_of_head (by decide) (by decide) (by decide) _
  | newMode m => exact other_of_head (by decide) (by decide) (by decide) _
  | newFileMode m => exact other_of_head (by decide) (by decide) (by decide) _
  | index a b m => exact other_of_head (by decide) (by decide) (by decide) _
  | deletedFileMode m =>
    refine ⟨fun h => ?_,not_prefix_of_head (by decide),not_prefix_of_head (by decide)⟩
    have hsecond := (List.cons_prefix_cons.mp (List.cons_prefix_cons.mp h).2).1
    exact absurd hsecond (by decide)

lemma reads_others (h : ∀ l ∈ ls, Other l) : (idle path).Reads ls [] (idle path) := by
  induction ls with
  | nil => exact reads_nil _
  | cons l ls ih =>
    rw [List.forall_mem_cons] at h
    exact PatchScan.Reads.cons (line_other h.1) (ih h.2)

/-- A file begins, without a name yet. -/
lemma line_diff (l : Bytes) : (idle path).line (ascii "diff --git " ++ l) = .ok ([],idle none) := by
  rw [line_idle,PatchScan.headerLine,if_pos (List.prefix_append _ _)]
  rfl

lemma line_plus (label : Bytes) :
    (idle path).line (ascii "+++ " ++ label) = .ok ([],idle (plusPath label)) := by
  have hdiff : ¬ ascii "diff --git " <+: ascii "+++ " ++ label := not_prefix_of_head (by decide)
  rw [line_idle,PatchScan.headerLine,if_neg hdiff,if_pos (List.prefix_append _ _)]
  rfl

lemma line_removed {old new : ℕ} (l : Bytes) :
    (⟨path,(old+1 : ℕ),new⟩ : PatchScan).line (45 :: l) = .ok ([],⟨path,old,new⟩) := by
  rw [PatchScan.line,if_pos (.inl (by show (0 : ℤ) < (old+1 : ℕ); omega)),PatchScan.hunkLine]
  simp

lemma line_added {new : ℕ} {p : Bytes} (l : Bytes) :
    (⟨some p,0,(new+1 : ℕ)⟩ : PatchScan).line (43 :: l) = .ok ([(p,l)],⟨some p,0,new⟩) := by
  rw [PatchScan.line,if_pos (.inr (by show (0 : ℤ) < (new+1 : ℕ); omega)),PatchScan.hunkLine]
  simp

/-- The mark of a last line without LF is passed over in a hunk and after it. -/
lemma line_noNewline (path : Option Bytes) (new : ℕ) :
    (⟨path,0,new⟩ : PatchScan).line noNewline = .ok ([],⟨path,0,new⟩) := by
  cases new with
  | zero => exact line_other (other_of_head (by decide) (by decide) (by decide) _)
  | succ new =>
    rw [PatchScan.line,if_pos (.inr (by show (0 : ℤ) < (new+1 : ℕ); omega))]
    rfl

lemma reads_mark (path : Option Bytes) (new : ℕ) (p : Prop) [Decidable p] :
    (⟨path,0,new⟩ : PatchScan).Reads (if p then [noNewline] else []) [] ⟨path,0,new⟩ := by
  split_ifs
  · exact reads_one (line_noNewline path new)
  · exact reads_nil _

lemma reads_removed (path : Option Bytes) (lines : List LineText) (new : ℕ) :
    (⟨path,(lines.length : ℕ),new⟩ : PatchScan).Reads (lines.map (fun l => 45 :: l.val)) [] ⟨path,0,
      new⟩ := by
  induction lines with
  | nil => exact reads_nil _
  | cons l lines ih => exact PatchScan.Reads.cons (line_removed l.val) ih

lemma reads_added (p : Bytes) (lines : List LineText) :
    (⟨some p,0,(lines.length : ℕ)⟩ : PatchScan).Reads (lines.map (fun l => 43 :: l.val))
    (lines.map (fun l => (p,l.val))) (idle (some p)) := by
  induction lines with
  | nil => exact reads_nil _
  | cons l lines ih => exact PatchScan.Reads.cons (line_added l.val) ih

end lines

section hunks
variable {n : ℕ} {rest : Bytes} {path : Option Bytes}

lemma takeWhile_digitBytes (n : ℕ) (h : rest.head?.any isDigit = false) :
    (digitBytes n ++ rest).takeWhile isDigit = digitBytes n := by
  have hdigits := (digits_iff.mp (digits_digitBytes n)).2
  rw [List.takeWhile_append_of_pos hdigits]
  cases rest with
  | nil => simp
  | cons c rest => rw [List.takeWhile_cons_of_neg (by simpa using h),List.append_nil]

lemma dropWhile_digitBytes (n : ℕ) (h : rest.head?.any isDigit = false) :
    (digitBytes n ++ rest).dropWhile isDigit = rest := by
  have hdigits := (digits_iff.mp (digits_digitBytes n)).2
  rw [List.dropWhile_append_of_pos hdigits]
  cases rest with
  | nil => rfl
  | cons c rest => exact List.dropWhile_cons_of_neg (by simpa using h)

lemma head_digitBytes (n : ℕ) (rest : Bytes) : (digitBytes n ++ rest).head?.any isDigit = true := by
  obtain ⟨hsome,hdigits⟩ := digits_iff.mp (digits_digitBytes n)
  cases hn : digitBytes n with
  | nil => exact absurd hn hsome
  | cons c ds =>
    rw [hn] at hdigits
    exact hdigits c List.mem_cons_self

/-- The digits of a count, none where it is 1. -/
def countDigits (n : ℕ) : Bytes := if n = 1 then [] else digitBytes n

lemma hunkRange_count (sign : UInt8) (start n : ℕ) (rest : Bytes) :
    hunkRange sign (sign :: (digitBytes start ++ countText n ++ 32 :: rest)) = some (countDigits n,
      32 :: rest) := by
  have hspace : (32 :: rest : Bytes).head?.any isDigit = false := rfl
  unfold hunkRange countText countDigits
  dsimp only
  rw [List.append_assoc,if_pos ⟨rfl,head_digitBytes _ _⟩]
  by_cases hn : n = 1
  · rw [if_pos hn,if_pos hn,List.nil_append,dropWhile_digitBytes start hspace,if_neg (by simp)]
  · rw [if_neg hn,if_neg hn,List.cons_append,dropWhile_digitBytes start rfl,List.tail_cons,
      if_pos ⟨rfl,head_digitBytes _ _⟩,
      takeWhile_digitBytes n hspace,dropWhile_digitBytes n hspace]

lemma hunkCount_digits (h : n < 2^63) : hunkCount (countDigits n) = n := by
  unfold hunkCount countDigits
  by_cases hn : n = 1
  · rw [if_pos hn,if_pos rfl,hn]
  · rw [if_neg hn,if_neg (digits_iff.mp (digits_digitBytes n)).1,decimalValue_digitBytes,if_pos h]

lemma hunkHeader_header (h : Hunk) :
    hunkHeader h.header = some ⟨countDigits h.removed.length,countDigits h.added.length⟩ := by
  have hold := hunkRange_count 45 h.oldStart h.removed.length
    (43 :: (digitBytes h.newStart ++ countText h.added.length ++
      (ascii " @@" ++ if h.heading.val = [] then [] else 32 :: h.heading.val)))
  have hnew := hunkRange_count 43 h.newStart h.added.length (64 :: 64 :: if h.heading.val = [] then
    [] else 32 :: h.heading.val)
  rw [hunkHeader,Hunk.header,if_pos (List.prefix_append _ _)]
  have hdrop : ∀ x : Bytes, (ascii "@@ " ++ x).drop 3 = x := fun x => rfl
  rw [hdrop,hold]
  simp only [bind,Option.bind,List.head?_cons,if_true,List.tail_cons]
  have hat : (ascii " @@" ++ if h.heading.val = [] then [] else 32 :: h.heading.val)
      = 32 :: 64 :: 64 :: if h.heading.val = [] then [] else 32 :: h.heading.val := rfl
  rw [hat,hnew]
  exact if_pos (List.prefix_append (ascii " @@") _)

/-- A hunk that can be counted. -/
def Hunk.Counted (h : Hunk) : Prop := h.removed.length < 2^63 ∧ h.added.length < 2^63

lemma line_header {h : Hunk} (hc : h.Counted) :
    (idle path).line h.header = .ok ([],⟨path,h.removed.length,h.added.length⟩) := by
  have hdiff : ¬ ascii "diff --git " <+: h.header := not_prefix_of_head (by decide)
  have hplus : ¬ ascii "+++ " <+: h.header := not_prefix_of_head (by decide)
  have hat : ascii "@@" <+: h.header := List.prefix_append (ascii "@@") _
  rw [line_idle,PatchScan.headerLine,if_neg hdiff,if_neg hplus,if_pos hat,hunkHeader_header]
  dsimp only
  rw [hunkCount_digits hc.1,hunkCount_digits hc.2]
  rfl

/-- A hunk is read as what it adds to the file it is in. -/
lemma reads_hunk {h : Hunk} (hc : h.Counted) (p : Bytes) :
    (idle (some p)).Reads h.render (h.added.map (fun l => (p,l.val))) (idle (some p)) := by
  have hremoved := (reads_removed (some p) h.removed h.added.length).append
    (reads_mark (some p) h.added.length (h.removed ≠ [] ∧ h.oldOpen = true))
  have hadded := (reads_added p h.added).append (reads_mark (some p) 0 (h.added ≠ [] ∧
    h.newOpen = true))
  have hall := PatchScan.Reads.cons (line_header hc) (hremoved.append hadded)
  simp only [List.nil_append,List.append_nil] at hall
  exact hall

/-- A hunk that adds nothing needs no path. -/
lemma reads_deletion {h : Hunk} (hc : h.Counted) (hadded : h.added = []) :
    (idle none).Reads h.render [] (idle none) := by
  have hremoved := (reads_removed none h.removed h.added.length).append
    (reads_mark none h.added.length (h.removed ≠ [] ∧ h.oldOpen = true))
  have hall := PatchScan.Reads.cons (line_header hc) hremoved
  have hrender : h.render = h.header :: (signedLines 45 h.removed h.oldOpen ++ []) := by
    rw [Hunk.render,hadded]
    rfl
  rw [hrender,List.append_nil]
  rw [hadded] at hall
  exact hall

end hunks

section changes
variable {quotePath : Bool} {path : Option Bytes}

/-- The hunks of a change can be counted. -/
def ChangeContent.Counted : ChangeContent → Prop
  | .text change => ∀ h ∈ change.hunks, h.Counted
  | _ => True

lemma reads_hunks {hunks : List Hunk} (hc : ∀ h ∈ hunks, h.Counted) (p : Bytes) :
    (idle (some p)).Reads (hunks.flatMap Hunk.render)
    ((hunks.flatMap (fun h => h.added.map Subtype.val)).map (fun l => (p,l))) (idle (some p)) := by
  induction hunks with
  | nil => exact reads_nil _
  | cons h hunks ih =>
    rw [List.forall_mem_cons] at hc
    have hall := (reads_hunk hc.1 p).append (ih hc.2)
    rw [List.flatMap_cons,List.flatMap_cons,List.map_append,List.map_map]
    exact hall

lemma reads_deletions {hunks : List Hunk} (hc : ∀ h ∈ hunks, h.Counted)
    (hadded : ∀ h ∈ hunks, h.added = []) :
    (idle none).Reads (hunks.flatMap Hunk.render) [] (idle none) := by
  induction hunks with
  | nil => exact reads_nil _
  | cons h hunks ih =>
    rw [List.forall_mem_cons] at hc hadded
    exact (reads_deletion hc.1 hadded.1).append (ih hc.2 hadded.2)

lemma added_deletions {hunks : List Hunk} (hadded : ∀ h ∈ hunks, h.added = []) :
    hunks.flatMap (fun h => h.added.map Subtype.val) = [] := by
  rw [List.flatMap_eq_nil_iff]
  intro h hh
  rw [hadded h hh]
  rfl

/-- What a change shows is read as what it adds, under the name that is read for it. -/
lemma reads_content {content : ChangeContent} (hc : content.Counted) (quotePath : Bool)
    (name : Bytes) :
    ∃ path', (idle none).Reads (content.render quotePath name) (content.added.map
      (fun l => (readName quotePath name,l))) (idle path') := by
  cases content with
  | same => exact ⟨none,reads_nil _⟩
  | binary sides =>
    exact ⟨none,reads_one (line_other (other_of_head (by decide) (by decide) (by decide) _))⟩
  | text change =>
    have hminus : (idle none).line (ascii "--- " ++
      withTab (oldLabel quotePath change.sides name)) = .ok ([],idle none) :=
      line_other (other_of_head (by decide) (by decide) (by decide) _)
    have hplus : (idle none).line (ascii "+++ " ++ withTab (newLabel quotePath change.sides name))
        = .ok ([],idle (plusPath (withTab (newLabel quotePath change.sides name)))) := line_plus _
    by_cases hdeleted : change.sides = .deleted
    · have hnone : plusPath (withTab (newLabel quotePath change.sides name)) = none := by
        rw [newLabel,if_pos hdeleted]
        decide
      have hadded := change.deleted hdeleted
      rw [hnone] at hplus
      refine ⟨none,?_⟩
      rw [ChangeContent.added,added_deletions hadded]
      exact PatchScan.Reads.cons hminus (PatchScan.Reads.cons hplus (reads_deletions hc hadded))
    · have hsome : plusPath (withTab (newLabel quotePath change.sides name)) = some
        (readName quotePath name) := by
        rw [newLabel,if_neg hdeleted]
        exact plusPath_label quotePath name
      rw [hsome] at hplus
      exact ⟨_,PatchScan.Reads.cons hminus (PatchScan.Reads.cons hplus (reads_hunks hc _))⟩

lemma reads_change {c : FileChange} (hc : c.content.Counted) (quotePath : Bool)
    (path : Option Bytes) :
    ∃ path', (idle path).Reads (c.render quotePath) (c.content.added.map
      (fun l => (readName quotePath c.name,l))) (idle path') := by
  obtain ⟨path',hcontent⟩ := reads_content hc quotePath c.name
  have hext : (idle none).Reads (c.extended.map ExtendedHeader.render) [] (idle none) := by
    refine reads_others (fun l hl => ?_)
    obtain ⟨e,_,rfl⟩ := List.mem_map.mp hl
    exact other_extended e
  have hdiff : (idle path).line (ascii "diff --git " ++ nameLabel quotePath (ascii "a/") c.name ++
    32 :: nameLabel quotePath (ascii "b/") c.name)
      = .ok ([],idle none) := by
    rw [List.append_assoc]
    exact line_diff _
  exact ⟨path',PatchScan.Reads.cons hdiff (hext.append hcontent)⟩

/-- All changes are read, each under the name that is read for it. -/
lemma reads_changes {changes : List FileChange} (hc : ∀ c ∈ changes, c.content.Counted)
    (quotePath : Bool) (path : Option Bytes) :
    ∃ path', (idle path).Reads (changes.flatMap (FileChange.render quotePath))
      (changes.flatMap (fun c => c.content.added.map (fun l => (readName quotePath c.name,l))))
      (idle path') := by
  induction changes generalizing path with
  | nil => exact ⟨path,reads_nil _⟩
  | cons c changes ih =>
    rw [List.forall_mem_cons] at hc
    obtain ⟨p,hfirst⟩ := reads_change hc.1 quotePath path
    obtain ⟨p',hrest⟩ := ih hc.2 p
    exact ⟨p',hfirst.append hrest⟩

end changes

section bytes
variable {quotePath : Bool}

lemma octal_no_line (mode : List (Fin 8)) : 10 ∉ octalText mode := by
  have hdigit : ∀ d : Fin 8, UInt8.ofNat (48+d.val) ≠ 10 := by decide
  intro h
  obtain ⟨d,_,hd⟩ := List.mem_map.mp h
  exact hdigit d hd

lemma hex_no_line (id : List (Fin 16)) : 10 ∉ hexText id := by
  have hdigit : ∀ d : Fin 16,
    UInt8.ofNat (if d.val < 10 then 48+d.val else 87+d.val) ≠ 10 := by decide
  intro h
  obtain ⟨d,_,hd⟩ := List.mem_map.mp h
  exact hdigit d hd

lemma digitBytes_no_line (n : ℕ) : 10 ∉ digitBytes n := by
  intro h
  have := (digits_iff.mp (digits_digitBytes n)).2 10 h
  cases this

lemma countText_no_line (n : ℕ) : 10 ∉ countText n := by
  unfold countText
  split_ifs
  · simp
  · rw [List.mem_cons,not_or]
    exact ⟨by decide,digitBytes_no_line n⟩

lemma extended_no_line (e : ExtendedHeader) : 10 ∉ e.render := by
  cases e with
  | oldMode m =>
    rw [ExtendedHeader.render,List.mem_append,not_or]
    exact ⟨by decide,octal_no_line m⟩
  | newMode m =>
    rw [ExtendedHeader.render,List.mem_append,not_or]
    exact ⟨by decide,octal_no_line m⟩
  | deletedFileMode m =>
    rw [ExtendedHeader.render,List.mem_append,not_or]
    exact ⟨by decide,octal_no_line m⟩
  | newFileMode m =>
    rw [ExtendedHeader.render,List.mem_append,not_or]
    exact ⟨by decide,octal_no_line m⟩
  | index a b m =>
    simp only [ExtendedHeader.render,List.mem_append,not_or]
    refine ⟨⟨⟨⟨by decide,hex_no_line a⟩,by decide⟩,hex_no_line b⟩,?_⟩
    cases m with
    | none => simp
    | some m =>
      rw [Option.map_some,Option.getD_some,List.mem_cons,not_or]
      exact ⟨by decide,octal_no_line m⟩

lemma oldLabel_no_line (quotePath : Bool) (sides : Sides) (name : Bytes) :
    10 ∉ oldLabel quotePath sides name := by
  unfold oldLabel
  split_ifs
  · decide
  · exact nameLabel_no_line (by decide)

lemma newLabel_no_line (quotePath : Bool) (sides : Sides) (name : Bytes) :
    10 ∉ newLabel quotePath sides name := by
  unfold newLabel
  split_ifs
  · decide
  · exact nameLabel_no_line (by decide)

lemma withTab_no_line {label : Bytes} (h : 10 ∉ label) : 10 ∉ withTab label := by
  unfold withTab
  split_ifs
  · rw [List.mem_append,not_or]
    exact ⟨h,by decide⟩
  · exact h

lemma header_no_line (h : Hunk) : 10 ∉ h.header := by
  simp only [Hunk.header,List.mem_append,List.mem_cons,not_or]
  refine ⟨by decide,by decide,⟨digitBytes_no_line _,countText_no_line _⟩,by decide,by decide,
    ⟨digitBytes_no_line _,countText_no_line _⟩,by decide,?_⟩
  split_ifs
  · simp
  · rw [List.mem_cons,not_or]
    exact ⟨by decide,h.heading.2⟩

lemma signedLines_no_line {sign : UInt8} (hsign : 10 ≠ sign) (lines : List LineText)
    (isOpen : Bool) :
    ∀ l ∈ signedLines sign lines isOpen, 10 ∉ l := by
  intro l hl
  obtain hl | hl := List.mem_append.mp hl
  · obtain ⟨t,_,rfl⟩ := List.mem_map.mp hl
    rw [List.mem_cons,not_or]
    exact ⟨hsign,t.2⟩
  · split_ifs at hl
    · obtain rfl := List.mem_singleton.mp hl
      decide
    · cases hl

lemma hunk_no_line (h : Hunk) : ∀ l ∈ h.render, 10 ∉ l := by
  intro l hl
  obtain rfl | hl := List.mem_cons.mp hl
  · exact header_no_line h
  · obtain hl | hl := List.mem_append.mp hl
    · exact signedLines_no_line (by decide) _ _ l hl
    · exact signedLines_no_line (by decide) _ _ l hl

/-- No line of a rendered change has an LF in it. -/
lemma render_no_line (c : FileChange) : ∀ l ∈ c.render quotePath, 10 ∉ l := by
  intro l hl
  obtain rfl | hl := List.mem_cons.mp hl
  · simp only [List.mem_append,List.mem_cons,not_or]
    exact ⟨⟨by decide,nameLabel_no_line (by decide)⟩,by decide,nameLabel_no_line (by decide)⟩
  · obtain hl | hl := List.mem_append.mp hl
    · obtain ⟨e,_,rfl⟩ := List.mem_map.mp hl
      exact extended_no_line e
    · cases hcontent : c.content with
      | same =>
        rw [hcontent] at hl
        cases hl
      | binary sides =>
        rw [hcontent] at hl
        obtain rfl := List.mem_singleton.mp hl
        simp only [List.mem_append,not_or]
        exact ⟨⟨⟨⟨by decide,oldLabel_no_line _ _ _⟩,by decide⟩,newLabel_no_line _ _ _⟩,by decide⟩
      | text change =>
        rw [hcontent] at hl
        obtain rfl | hl := List.mem_cons.mp hl
        · rw [List.mem_append,not_or]
          exact ⟨by decide,withTab_no_line (oldLabel_no_line _ _ _)⟩
        · obtain rfl | hl := List.mem_cons.mp hl
          · rw [List.mem_append,not_or]
            exact ⟨by decide,withTab_no_line (newLabel_no_line _ _ _)⟩
          · obtain ⟨h,_,hl⟩ := List.mem_flatMap.mp hl
            exact hunk_no_line h l hl

lemma cutLines_joined {ls : List Bytes} (h : ∀ l ∈ ls, 10 ∉ l) :
    cutLines (ls.flatMap (fun l => l ++ [10])) = (ls,[]) := by
  induction ls with
  | nil => rfl
  | cons l ls ih =>
    rw [List.forall_mem_cons] at h
    rw [List.flatMap_cons,List.append_assoc,List.singleton_append,cutLines_line h.1,ih h.2]

/-- A patch is no shorter than the list of its lines. -/
lemma length_lines_le (ls : List Bytes) : ls.length ≤ (ls.flatMap (fun l => l ++ [10])).length := by
  induction ls with
  | nil => exact le_rfl
  | cons l ls ih =>
    simp only [List.flatMap_cons,List.length_append,List.length_cons,List.length_nil]
    omega

lemma length_le_flatMap {α β : Type} {f : α → List β} {a : α} {as : List α} (h : a ∈ as) :
    (f a).length ≤ (as.flatMap f).length := by
  obtain ⟨pre,post,rfl⟩ := List.append_of_mem h
  rw [List.flatMap_append,List.flatMap_cons,List.length_append,List.length_append]
  omega

/-- The hunks of a patch that a string holds can be counted. -/
lemma counted_of_length {changes : List FileChange}
    (h : (renderPatch quotePath changes).length < 2^63) :
    ∀ c ∈ changes, c.content.Counted := by
  intro c hc
  cases hcontent : c.content with
  | same => exact trivial
  | binary sides => exact trivial
  | text change =>
    intro hunk hhunk
    have hpatch := length_lines_le (changes.flatMap (FileChange.render quotePath))
    have hchange := length_le_flatMap (f := FileChange.render quotePath) hc
    have hlines : (change.hunks.flatMap Hunk.render).length ≤ (c.render quotePath).length := by
      rw [FileChange.render,hcontent,ChangeContent.render]
      simp only [List.length_cons,List.length_append]
      omega
    have hone := length_le_flatMap (f := Hunk.render) hhunk
    have hcount : hunk.removed.length+hunk.added.length ≤ hunk.render.length := by
      simp only [Hunk.render,signedLines,List.length_cons,List.length_append,List.length_map]
      omega
    unfold renderPatch at h
    exact ⟨by omega,by omega⟩

end bytes

section exact
variable {quotePath : Bool} {changes : List FileChange}

/-- What the scan reads of a patch. -/
lemma scan_renderPatch (h : (renderPatch quotePath changes).length < 2^63) :
    scanAddedLines (renderPatch quotePath changes)
    = (changes.flatMap (fun c => c.content.added.map (fun l => (readName quotePath c.name,l))),
      none) := by
  have hlines : ∀ l ∈ changes.flatMap (FileChange.render quotePath), 10 ∉ l := by
    intro l hl
    obtain ⟨c,_,hl⟩ := List.mem_flatMap.mp hl
    exact render_no_line c l hl
  obtain ⟨path,hreads⟩ := reads_changes (counted_of_length h) quotePath none
  have hend : (idle path).lines [[]] = ([],none) := by
    rw [PatchScan.lines,line_other other_nil]
    rfl
  rw [scanAddedLines,renderPatch,cutLines_joined hlines]
  have hall := hreads [[]]
  rw [hend,List.append_nil] at hall
  exact hall

/-- Lists of lines under names are the same just when the names are, where there is a line. -/
lemma flatMap_names_iff {f : Bytes → Bytes} :
    changes.flatMap (fun c => c.content.added.map (fun l => (f c.name,l))) = addedLines changes
      ↔ ∀ c ∈ changes, c.content.added ≠ [] → f c.name = c.name := by
  induction changes with
  | nil => exact ⟨fun _ _ h => (by cases h),fun _ => rfl⟩
  | cons c changes ih =>
    have hcons : addedLines (c :: changes) = c.content.added.map (fun l => (c.name,l)) ++
      addedLines changes := rfl
    have hsplit : ∀ a b : List (Bytes × Bytes), c.content.added.map (fun l => (f c.name,l)) ++
      a = c.content.added.map (fun l => (c.name,l)) ++ b
        ↔ c.content.added.map (fun l => (f c.name,l)) = c.content.added.map (fun l => (c.name,l)) ∧
        a = b := by
      intro a b
      refine ⟨fun h => List.append_inj h (by simp),?_⟩
      rintro ⟨ha,hb⟩
      rw [ha,hb]
    rw [List.forall_mem_cons,← ih,List.flatMap_cons,hcons,hsplit]
    refine and_congr_left (fun _ => ?_)
    constructor
    · intro h hsome
      obtain ⟨l,ls,hl⟩ := List.exists_cons_of_ne_nil hsome
      rw [hl,List.map_cons,List.map_cons] at h
      exact congrArg Prod.fst (List.cons.inj h).1
    · intro h
      by_cases hsome : c.content.added = []
      · rw [hsome,List.map_nil,List.map_nil]
      · rw [h hsome]

/-- The added lines of a patch are read exactly just when each name that has some and that git puts
in quotes with bytes outside ASCII as they are is UTF-8. -/
theorem readsExactly_iff (quotePath : Bool) (changes : List FileChange)
    (h : (renderPatch quotePath changes).length < 2^63) :
    ReadsExactly quotePath changes ↔ quotePath = true ∨ ∀ c ∈ changes, c.content.added ≠ [] →
    needsQuote false c.name = true → IsUtf8 c.name := by
  rw [ReadsExactly,scan_renderPatch h,Prod.mk.injEq,and_iff_left rfl,flatMap_names_iff]
  constructor
  · intro hnames
    cases hq : quotePath with
    | true => exact .inl rfl
    | false => exact .inr (fun c hc hadded => readName_eq_iff.mp (hnames c hc hadded) hq)
  · rintro (hq | hnames) c hc hadded
    · exact readName_eq_iff.mpr (fun hfalse => by rw [hq] at hfalse; cases hfalse)
    · exact readName_eq_iff.mpr (fun _ => hnames c hc hadded)

/-- One line is added to a new file of some name. -/
def oneLine (name : Bytes) : FileChange :=
  ⟨name,[.newFileMode [1,0,0,6,4,4],.index [0,0,0] [7,11,2] none],
    .text ⟨.created,[⟨0,1,⟨[],by decide⟩,[],false,[⟨ascii "++ b/x",by decide⟩],false⟩],
    by decide,by decide⟩⟩

theorem readsExactly_quoted : (renderPatch false [oneLine (ascii "a\"b")]).length < 2^63 ∧
    ReadsExactly false [oneLine (ascii "a\"b")] := by
  have hlen : (renderPatch false [oneLine (ascii "a\"b")]).length < 2^63 := by decide +kernel
  refine ⟨hlen,(readsExactly_iff false _ hlen).mpr (.inr ?_)⟩
  intro c hc _ _
  obtain rfl := List.mem_singleton.mp hc
  exact ⟨['a','"','b'],by decide⟩

/-- A name with a quote and a byte that is no character. -/
theorem not_readsExactly_stray : ¬ ReadsExactly false [oneLine [97,34,255]] := by
  unfold ReadsExactly
  decide

end exact
end Manvi.DevCouncil
