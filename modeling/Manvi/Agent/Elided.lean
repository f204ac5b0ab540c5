import Manvi.Agent.Floors

/-! What a shortened tool result shows of the lines it was made from, and what its notice says is
left out. -/
namespace Manvi.Agent

/-- What a shortened text shows: whole lines in front, perhaps a part of the line after them, a
notice with a number and, where lines follow the notice, whole lines behind. -/
structure Elision where
  head : List String
  part : Option String
  number : ℕ
  tail : Option (List String)

namespace Elision

def render (e : Elision) : String :=
  String.join ((e.head ++ e.part.toList).map (· ++ "\n")) ++ compactionMarker e.number ++
    (match e.tail with
      | none => ""
      | some tail => "\n" ++ "\n".intercalate tail)

/-- The notice tells the truth: what is shown opens and closes the lines of the text, a part is some
of its line, and the number is that of the lines between. -/
def Honest (e : Elision) (text : String) : Prop := ∃ whole dropped : List String,
  textLines text = e.head ++ whole ++ dropped ++ e.tail.getD [] ∧
  whole.length = e.part.toList.length ∧
  (∀ p ∈ e.part, ∀ w ∈ whole, p.toList <+: w.toList ∧ (p ≠ "" ∨ w = "")) ∧
  e.number = dropped.length

end Elision

/-- What the shortening of a text over the floor shows. -/
def elision (text : String) (maxChars : ℤ) : Elision :=
  if 8 ≤ (textLines text).length ∧ EndFits (textLines text) maxChars then
    let c := lineCut (textLines text) maxChars
    ⟨c.head,none,c.omitted,some c.tail⟩
  else
    let lines := textLines (keptRunes text maxChars)
    ⟨lines.dropLast,some (lines.getLastD ""),0,none⟩

/-- The characters of a text after those that are kept. -/
def restRunes (text : String) (maxChars : ℤ) : List Char :=
  text.toList.drop (fitRunes text.toList maxChars (min maxChars.toNat text.toList.length))

/-! Lines of a text in two parts. -/

lemma splitLines_cons {c : Char} {line : List Char} {lines : List (List Char)} {cs : List Char}
    (hc : c ≠ '\n')
    (h : splitLines cs = line :: lines) : splitLines (c :: cs) = (c :: line) :: lines := by
  rw [splitLines,if_neg hc,h]

/-- The last line of the first part and the first line of the second are one line. -/
lemma splitLines_append (a b : List Char) : ∃ front last first back,
    splitLines a = front ++ [last] ∧ splitLines b = first :: back ∧
      splitLines (a ++ b) = front ++ [last ++ first] ++ back := by
  obtain ⟨first,back,hb⟩ := List.exists_cons_of_ne_nil (splitLines_ne_nil b)
  induction a with
  | nil => exact ⟨[],[],first,back,rfl,hb,hb⟩
  | cons c a ih =>
    obtain ⟨front,last,first',back',ha,hb',hab⟩ := ih
    by_cases hc : c = '\n'
    · subst hc
      refine ⟨[] :: front,last,first',back',?_,hb',?_⟩
      · rw [splitLines,if_pos rfl,ha]
        rfl
      · rw [List.cons_append,splitLines,if_pos rfl,hab]
        rfl
    · cases front with
      | nil =>
        refine ⟨[],c :: last,first',back',splitLines_cons hc ha,hb',?_⟩
        exact splitLines_cons hc hab
      | cons line front =>
        refine ⟨(c :: line) :: front,last,first',back',splitLines_cons hc ha,hb',?_⟩
        exact splitLines_cons hc hab

lemma splitLines_single {cs : List Char} : (splitLines cs).tail = [] ↔ '\n' ∉ cs := by
  induction cs with
  | nil => simp [splitLines]
  | cons c cs ih =>
    obtain ⟨line,lines,hs⟩ := List.exists_cons_of_ne_nil (splitLines_ne_nil cs)
    by_cases hc : c = '\n'
    · subst hc
      simp [splitLines,hs]
    · rw [splitLines_cons hc hs]
      rw [hs] at ih
      simp only [List.tail_cons] at ih ⊢
      rw [ih]
      simp [Ne.symm hc]

lemma splitLines_of_no_feed {cs : List Char} (h : '\n' ∉ cs) : splitLines cs = [cs] := by
  induction cs with
  | nil => rfl
  | cons c cs ih =>
    have hc : c ≠ '\n' := by
      rintro rfl
      exact h List.mem_cons_self
    exact splitLines_cons hc (ih fun hmem => h (List.mem_cons_of_mem c hmem))

/-- The last line of a text is empty where the text is or where it ends in a line feed. -/
lemma splitLines_last {cs last : List Char} (h : (splitLines cs).getLast? = some last) :
    last ≠ [] ↔ ∃ c, cs.getLast? = some c ∧ c ≠ '\n' := by
  induction cs using List.reverseRecOn with
  | nil =>
    cases h
    simp
  | append_singleton cs c =>
    obtain ⟨front,lastA,first,back,-,hb,hab⟩ := splitLines_append cs [c]
    rw [hab] at h
    by_cases hc : c = '\n'
    · subst hc
      cases hb
      rw [List.getLast?_append] at h
      cases h
      simp
    · rw [splitLines_of_no_feed (by simpa using Ne.symm hc)] at hb
      cases hb
      simp only [List.append_nil,List.getLast?_concat,Option.some.injEq] at h
      subst h
      simp [hc]

/-! The cut by characters. -/

lemma toList_keptRunes (text : String) (maxChars : ℤ) :
    text.toList = (keptRunes text maxChars).toList ++ restRunes text maxChars := by
  rw [keptRunes,restRunes,String.toList_ofList,List.take_append_drop]

/-- The notice of a cut by characters, which always says zero, is honest only where the cut falls
inside the last line of the text, past its first character. -/
lemma honest_runeCut {text : String} {maxChars : ℤ} (hrest : restRunes text maxChars ≠ []) :
    Elision.Honest ⟨(textLines (keptRunes text maxChars)).dropLast,
      some ((textLines (keptRunes text maxChars)).getLastD ""),0,none⟩ text ↔
    '\n' ∉ restRunes text maxChars ∧ ∃ c, (keptRunes text maxChars).toList.getLast? = some c ∧
    c ≠ '\n' := by
  obtain ⟨front,last,first,back,ha,hb,hab⟩ :=
    splitLines_append (keptRunes text maxChars).toList (restRunes text maxChars)
  rw [← toList_keptRunes] at hab
  have hend : (splitLines (keptRunes text maxChars).toList).getLast? = some last := by rw [ha,
    List.getLast?_concat]
  have hlast := splitLines_last hend
  have hfeed : back = [] ↔ '\n' ∉ restRunes text maxChars := by
    rw [← splitLines_single,hb,List.tail_cons]
  have hhead : (textLines (keptRunes text maxChars)).dropLast = front.map String.ofList := by
    rw [textLines,ha,List.map_append,List.map_singleton,List.dropLast_concat]
  have hpart : (textLines (keptRunes text maxChars)).getLastD "" = String.ofList last := by
    rw [textLines,ha,List.map_append,List.map_singleton,List.getLastD_concat]
  have hlines : textLines text = front.map String.ofList ++ [String.ofList (last ++ first)] ++
    back.map String.ofList := by
    rw [textLines,hab,List.map_append,List.map_append,List.map_singleton]
  rw [← hfeed,← hlast,hhead,hpart]
  constructor
  · rintro ⟨whole,dropped,hsplit,hlen,hshown,hnumber⟩
    have hdropped : dropped = [] := List.length_eq_zero_iff.mp hnumber.symm
    obtain ⟨w,rfl⟩ := List.length_eq_one_iff.mp hlen
    rw [hlines,hdropped] at hsplit
    simp only [Option.getD_none,List.append_nil] at hsplit
    rw [List.append_assoc,List.append_right_inj,List.singleton_append] at hsplit
    injection hsplit with hw hback
    have hback' : back = [] := List.map_eq_nil_iff.mp hback
    refine ⟨hback',?_⟩
    rintro rfl
    have hno : '\n' ∉ restRunes text maxChars := hfeed.mp hback'
    have hfirst : first = restRunes text maxChars := by
      rw [splitLines_of_no_feed hno] at hb
      cases hb
      rfl
    obtain hempty | hwhole := (hshown _ rfl w List.mem_cons_self).2
    · exact hempty String.ofList_nil
    · rw [hwhole,List.nil_append,hfirst] at hw
      have hnil := congrArg String.toList hw
      rw [String.toList_ofList] at hnil
      exact hrest hnil
  · rintro ⟨rfl,hne⟩
    refine ⟨[String.ofList (last ++ first)],[],?_,rfl,?_,rfl⟩
    · rw [hlines]
      simp
    · intro p hp w hw
      cases hp
      cases List.mem_singleton.mp hw
      refine ⟨?_,.inl ?_⟩
      · rw [String.toList_ofList,String.toList_ofList]
        exact List.prefix_append _ _
      · intro hempty
        have hnil := congrArg String.toList hempty
        rw [String.toList_ofList] at hnil
        exact hne hnil

lemma flatMap_splitLines (cs : List Char) :
    (splitLines cs).flatMap (· ++ ['\n']) = cs ++ ['\n'] := by
  induction cs with
  | nil => rfl
  | cons c cs ih =>
    obtain ⟨line,lines,hs⟩ := List.exists_cons_of_ne_nil (splitLines_ne_nil cs)
    by_cases hc : c = '\n'
    · subst hc
      rw [splitLines,if_pos rfl,List.flatMap_cons,ih]
      rfl
    · rw [splitLines_cons hc hs]
      rw [hs] at ih
      rw [List.flatMap_cons] at ih ⊢
      rw [List.cons_append,List.cons_append,List.cons_append,ih]

/-- The lines of a text, each with a line feed, are the text with one. -/
lemma join_textLines (text : String) :
    String.join ((textLines text).map (· ++ "\n")) = text ++ "\n" := by
  apply String.toList_injective
  have hfeed : "\n".toList = ['\n'] := by decide
  rw [String.toList_join,String.toList_append,hfeed,← flatMap_splitLines,textLines,List.map_map,
    List.flatMap_map]
  congr 1
  funext line
  show (String.ofList line ++ "\n").toList = line ++ ['\n']
  rw [String.toList_append,String.toList_ofList,hfeed]

lemma textLines_ne_nil (text : String) : textLines text ≠ [] := by
  intro hnil
  exact splitLines_ne_nil text.toList (List.map_eq_nil_iff.mp hnil)

/-- A shortened text is what its elision shows. -/
lemma render_elision {text : String} {maxChars : ℤ}
    (hshort : compactToolResultText text maxChars ≠ text) :
    compactToolResultText text maxChars = (elision text maxChars).render := by
  have hpos : 0 < maxChars ∧ maxChars < size text := by
    by_contra hnot
    apply hshort
    unfold compactToolResultText
    rw [if_pos (by omega)]
  have hout := compactToolResultText_over hpos.1 hpos.2
  unfold elision
  by_cases hlines : 8 ≤ (textLines text).length ∧ EndFits (textLines text) maxChars
  · rw [if_pos hlines] at hout ⊢
    rw [hout]
    simp only [LineCut.render,Elision.render,Option.toList_none,List.append_nil,String.append_assoc]
  · rw [if_neg hlines] at hout ⊢
    by_cases hfits : size text ≤ size (keptRunes text maxChars)+46
    · rw [if_pos hfits] at hout
      exact (hshort hout).elim
    · rw [if_neg hfits] at hout
      have hjoin := join_textLines (keptRunes text maxChars)
      have hsplit : textLines (keptRunes text maxChars) =
        (textLines (keptRunes text maxChars)).dropLast ++
          [(textLines (keptRunes text maxChars)).getLastD ""] := by
        have hne := textLines_ne_nil (keptRunes text maxChars)
        rw [List.getLastD_eq_getLast?,List.getLast?_eq_some_getLast hne,Option.getD_some,
          List.dropLast_append_getLast]
      rw [hout,runeCut,← hjoin]
      simp only [Elision.render,Option.toList_some,← hsplit,String.append_empty]

/-- A shortened result shows the opening and the closing lines of its text around a notice that
gives the number of lines left out. -/
def HonestNotice (text : String) (maxChars : ℤ) : Prop :=
  compactToolResultText text maxChars = (elision text maxChars).render ∧
  (elision text maxChars).Honest text

/-- The text is cut by lines, or what is left out is the end of a line that is begun. -/
def CutWithinLine (text : String) (maxChars : ℤ) : Prop :=
  (8 ≤ (textLines text).length ∧ EndFits (textLines text) maxChars) ∨
  ('\n' ∉ restRunes text maxChars ∧ ∃ c, (keptRunes text maxChars).toList.getLast? = some c ∧
    c ≠ '\n')

/-- The notice of a shortened result is honest exactly where the result is cut by lines or within
its last line. -/
theorem honestNotice_iff (text : String) (maxChars : ℤ)
    (hshort : compactToolResultText text maxChars ≠ text) :
    HonestNotice text maxChars ↔ CutWithinLine text maxChars := by
  have hrender := render_elision hshort
  have hpos : 0 < maxChars ∧ maxChars < size text := by
    by_contra hnot
    apply hshort
    unfold compactToolResultText
    rw [if_pos (by omega)]
  unfold HonestNotice CutWithinLine
  by_cases hlines : 8 ≤ (textLines text).length ∧ EndFits (textLines text) maxChars
  · obtain ⟨middle,hsplit,hlen⟩ := lineCut_split (textLines text) maxChars
    refine ⟨fun _ => .inl hlines,fun _ => ⟨hrender,[],middle,?_,?_,?_,?_⟩⟩
    all_goals rw [elision,if_pos hlines]
    · simpa using hsplit
    · rfl
    · intro p hp
      cases hp
    · exact hlen.symm
  · have hrest : restRunes text maxChars ≠ [] := by
      intro hnil
      have htext := toList_keptRunes text maxChars
      rw [hnil,List.append_nil] at htext
      have hkept := size_keptRunes_le text hpos.1.le
      rw [← String.toList_injective htext] at hkept
      omega
    have hhonest := honest_runeCut hrest
    rw [elision,if_neg hlines] at hrender ⊢
    simp only [hlines,false_or]
    rw [← hhonest]
    exact ⟨fun h => h.2,fun h => ⟨hrender,h⟩⟩

/-- Forty lines of one letter. -/
def shortLines : String := String.ofList (List.replicate 40 ['a','\n']).flatten

theorem honestNotice_iff_lines :
    compactToolResultText shortLines 64 ≠ shortLines ∧ HonestNotice shortLines 64 := by
  have hsize : size shortLines = 80 := (size_ofList _).trans (by decide)
  have hchars : shortLines.toList = (List.replicate 40 ['a','\n']).flatten := String.toList_ofList
  have hlines : textLines shortLines = List.replicate 40 "a" ++ [""] := by
    have hsplit : splitLines (List.replicate 40 ['a','\n']).flatten = List.replicate 40 ['a'] ++
      [[]] := by decide
    rw [textLines,hchars,hsplit,List.map_append,List.map_replicate]
    rfl
  have hfits : 8 ≤ (textLines shortLines).length ∧ EndFits (textLines shortLines) 64 := by
    rw [hlines]
    decide
  have hshort : compactToolResultText shortLines 64 ≠ shortLines := by
    intro heq
    have hle := size_render_le hfits.2
    rw [compactToolResultText_over (by decide) (by rw [hsize]; decide),if_pos hfits] at heq
    rw [heq,hsize] at hle
    exact absurd hle (by decide)
  exact ⟨hshort,(honestNotice_iff shortLines 64 hshort).mpr (.inl hfits)⟩

/-- A line of letters, and a second line of others. -/
def twoLines : String := String.ofList (List.replicate 100 'a' ++ '\n' :: List.replicate 100 'b')

/-- The second line is left out whole, and the notice says that no line is. -/
theorem dropped_line_not_counted :
    compactToolResultText twoLines 64 ≠ twoLines ∧ (elision twoLines 64).number = 0 ∧
    ¬ HonestNotice twoLines 64 := by
  have hone : 'a'.utf8Size = 1 := by decide
  have hchars : twoLines.toList = List.replicate 100 'a' ++ '\n' :: List.replicate 100 'b' :=
    String.toList_ofList
  have hsize : size twoLines = 201 := (size_ofList _).trans (by decide +kernel)
  have htake : twoLines.toList.take 64 = List.replicate 64 'a' := by
    rw [hchars]
    decide
  have hfit : fitRunes twoLines.toList 64 (min (64 : ℤ).toNat twoLines.toList.length) = 64 := by
    have hmin : min (64 : ℤ).toNat twoLines.toList.length = 64 := by
      rw [hchars]
      decide +kernel
    rw [hmin]
    exact fitRunes_fits (by rw [htake,size_replicate hone]; decide)
  have hkept : size (keptRunes twoLines 64) = 64 := by rw [keptRunes,hfit,htake,size_replicate hone]
  have hnot : ¬ (8 ≤ (textLines twoLines).length ∧ EndFits (textLines twoLines) 64) := by
    have hlen : (textLines twoLines).length = 2 := by
      rw [textLines,hchars,List.length_map]
      decide
    rw [hlen]
    exact fun h => absurd h.1 (by decide)
  have helision : elision twoLines 64 = ⟨(textLines (keptRunes twoLines 64)).dropLast,
      some ((textLines (keptRunes twoLines 64)).getLastD ""),0,none⟩ := if_neg hnot
  have hrest : restRunes twoLines 64 = List.replicate 36 'a' ++ '\n' :: List.replicate 100 'b' := by
    rw [restRunes,hfit,hchars]
    decide
  refine ⟨?_,by rw [helision],?_⟩
  · intro heq
    rw [compactToolResultText_over (by decide) (by rw [hsize]; decide),if_neg hnot,
      if_neg (by rw [hsize,hkept]; decide)] at heq
    have hcut := size_runeCut twoLines 64
    rw [heq,hsize,hkept] at hcut
    exact absurd hcut (by decide)
  · rintro ⟨-,hhonest⟩
    rw [helision] at hhonest
    have hfeed := ((honest_runeCut (by rw [hrest]; simp)).mp hhonest).1
    exact hfeed (by rw [hrest]; simp)

end Manvi.Agent
