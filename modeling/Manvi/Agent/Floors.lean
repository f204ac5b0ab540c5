import Manvi.Agent.Compaction

/-! Shortening one tool result against the floor it is asked for. -/
namespace Manvi.Agent

/-! Sizes. -/

@[simp] lemma size_append (a b : String) : size (a ++ b) = size a+size b :=
    String.utf8ByteSize_append

lemma size_ofList (cs : List Char) : size (String.ofList cs) = (cs.map Char.utf8Size).sum := by
  induction cs with
  | nil => rfl
  | cons c cs ih =>
    rw [String.ofList_cons,size_append,ih,List.map_cons,List.sum_cons]
    exact congrArg (· +_) String.utf8ByteSize_singleton

lemma size_replicate {c : Char} (hc : c.utf8Size = 1) (n : ℕ) :
    size (String.ofList (List.replicate n c)) = n := by
  rw [size_ofList,List.map_replicate,List.sum_replicate,hc,smul_eq_mul,Nat.mul_one]

lemma size_eq (text : String) : size text = (text.toList.map Char.utf8Size).sum := by
  rw [← size_ofList,String.ofList_toList]

lemma size_lineFeed : size "\n" = 1 := by decide

/-- The bytes of some lines, each with its line feed. -/
def width (lines : List String) : ℕ := (lines.map (fun l => size l+1)).sum

@[simp] lemma width_nil : width [] = 0 := rfl

@[simp] lemma width_cons (l : String) (ls : List String) : width (l :: ls) = size l+1+width ls := by
  simp [width]

@[simp] lemma width_append (as bs : List String) : width (as ++ bs) = width as+width bs := by
  simp [width]

lemma width_reverse (ls : List String) : width ls.reverse = width ls := by
  rw [width,width,List.map_reverse,List.sum_reverse]

lemma size_join_lines (ls : List String) : size (String.join (ls.map (· ++ "\n"))) = width ls := by
  induction ls with
  | nil => rfl
  | cons l ls ih =>
    rw [List.map_cons,String.join_cons,size_append,size_append,size_lineFeed,ih,width_cons]

lemma size_intercalate_le (ls : List String) : size ("\n".intercalate ls) ≤ width ls := by
  induction ls with
  | nil => exact le_of_eq rfl
  | cons l ls ih =>
    by_cases hnil : ls = []
    · subst hnil
      rw [String.intercalate_singleton,width_cons]
      omega
    · rw [String.intercalate_cons_of_ne_nil hnil,size_append,size_append,size_lineFeed,width_cons]
      omega

/-- The lines of a text. -/
def textLines (text : String) : List String := (splitLines text.toList).map String.ofList

lemma splitLines_ne_nil (cs : List Char) : splitLines cs ≠ [] := by
  cases cs with
  | nil => simp [splitLines]
  | cons c cs =>
    unfold splitLines
    split
    next => simp
    next =>
      split
      next => simp
      next => simp

lemma splitLines_sum (cs : List Char) :
    width ((splitLines cs).map String.ofList) = (cs.map Char.utf8Size).sum+1 := by
  induction cs with
  | nil => simp [splitLines,size]
  | cons c cs ih =>
    unfold splitLines
    by_cases hc : c = '\n'
    · subst hc
      rw [if_pos rfl,List.map_cons,width_cons,ih,List.map_cons,List.sum_cons,size_ofList]
      have hone : Char.utf8Size '\n' = 1 := by decide
      simp [hone]
      omega
    · rw [if_neg hc]
      cases hs : splitLines cs with
      | nil => exact (splitLines_ne_nil cs hs).elim
      | cons line lines =>
        rw [hs] at ih
        simp only [List.map_cons,width_cons,size_ofList,List.sum_cons] at ih ⊢
        omega

/-- A text has the bytes of its lines and of the line feeds between them. -/
lemma width_textLines (text : String) : width (textLines text) = size text+1 := by
  rw [textLines,splitLines_sum,size_eq]

lemma digits_ascii (n : ℕ) : size (toString n) = n.repr.length := by
  have hstr : toString n = String.ofList (Nat.toDigits 10 n) := Nat.toString_eq_ofList_toDigits
  have hone : ∀ c ∈ Nat.toDigits 10 n, c.utf8Size = 1 := by
    intro c hc
    have hd := Nat.isDigit_of_mem_toDigits (by decide) (by decide) hc
    simp only [Char.isDigit,Bool.and_eq_true,decide_eq_true_eq] at hd
    have hle : c.val ≤ 0x7f := UInt32.le_trans hd.2 (by decide)
    exact if_pos hle
  have hlen : n.repr.length = (Nat.toDigits 10 n).length := by
    rw [← String.length_toList,Nat.toList_repr]
  rw [hstr,size_ofList,hlen,List.map_congr_left hone]
  simp

lemma size_marker (n : ℕ) : size (compactionMarker n) = 44+n.repr.length := by
  have hrest : size " line(s) omitted to fit the context window]" = 43 := by decide
  have hopen : size "[" = 1 := by decide
  show size (toString "[" ++ toString n ++
    toString " line(s) omitted to fit the context window]") = _
  rw [size_append,size_append,digits_ascii]
  show size "[" + _ + size " line(s) omitted to fit the context window]" = _
  omega

lemma size_marker_mono {a b : ℕ} (h : a ≤ b) :
    size (compactionMarker a) ≤ size (compactionMarker b) := by
  rw [size_marker,size_marker]
  have hb := (Nat.length_repr_le_iff Nat.length_repr_pos).mp (le_refl b.repr.length)
  have ha := (Nat.length_repr_le_iff Nat.length_repr_pos).mpr (lt_of_le_of_lt h hb)
  omega

/-! Cutting by lines. -/

/-- The lines that fit open the list, and stay within the half. -/
lemma fitLines_spec {half used : ℤ} (lines : List String) (hused : used ≤ half) :
    fitLines half used lines <+: lines ∧ used+width (fitLines half used lines) ≤ half := by
  induction lines generalizing used with
  | nil => exact ⟨List.prefix_refl _,by simpa [fitLines] using hused⟩
  | cons l lines ih =>
    unfold fitLines
    split
    next => exact ⟨List.nil_prefix,by simpa using hused⟩
    next hfits =>
      obtain ⟨hpre,hwidth⟩ := ih (not_lt.mp hfits)
      refine ⟨List.cons_prefix_cons.mpr ⟨rfl,hpre⟩,?_⟩
      rw [width_cons]
      push_cast
      omega

lemma fitLines_negative {half : ℤ} (hhalf : half < 0) (lines : List String) :
    fitLines half 0 lines = [] := by
  cases lines with
  | nil => rfl
  | cons l lines =>
    unfold fitLines
    rw [if_pos (by omega)]

lemma fitLines_prefix (half : ℤ) (lines : List String) : fitLines half 0 lines <+: lines := by
  by_cases hhalf : half < 0
  · rw [fitLines_negative hhalf]
    exact List.nil_prefix
  · exact (fitLines_spec lines (not_lt.mp hhalf)).1

/-- Some lines fit if and only if the first one does. -/
lemma fitLines_ne_nil {half : ℤ} {l : String} {lines : List String} :
    fitLines half 0 (l :: lines) ≠ [] ↔ (size l : ℤ)+1 ≤ half := by
  unfold fitLines
  split
  next hover =>
    simp only [ne_eq,not_true_eq_false,false_iff]
    omega
  next hfits =>
    simp only [ne_eq,reduceCtorEq,not_false_eq_true,true_iff]
    omega

/-- How the lines of a text are divided: those kept in front, those left out, and those kept
behind. -/
structure LineCut where
  head : List String
  omitted : ℕ
  tail : List String
  deriving DecidableEq

/-- The bytes that each end may take at a floor. -/
def lineHalf (lines : List String) (maxChars : ℤ) : ℤ :=
  (maxChars-size (compactionMarker lines.length)-1).tdiv 2

def lineCut (lines : List String) (maxChars : ℤ) : LineCut :=
  let head := fitLines (lineHalf lines maxChars) 0 lines
  let tail := (fitLines (lineHalf lines maxChars) 0 (lines.drop head.length).reverse).reverse
  ⟨head,lines.length-head.length-tail.length,tail⟩

def LineCut.render (c : LineCut) : String :=
  String.join (c.head.map (· ++ "\n")) ++ compactionMarker c.omitted ++ "\n" ++
  "\n".intercalate c.tail

lemma cutLines_eq (text : String) (maxChars : ℤ) :
    cutLines text maxChars =
      if (textLines text).length < 8 then none
      else if 0 < (lineCut (textLines text) maxChars).omitted ∧
          0 < (lineCut (textLines text) maxChars).head.length+(lineCut
            (textLines text) maxChars).tail.length then
        if size (lineCut (textLines text) maxChars).render < size text ∧
            (size (lineCut (textLines text) maxChars).render : ℤ) ≤ maxChars
        then some (lineCut (textLines text) maxChars).render else none
      else none := rfl

/-- The kept ends are ends of the lines and do not meet. -/
lemma lineCut_split (lines : List String) (maxChars : ℤ) :
    ∃ middle, lines = (lineCut lines maxChars).head ++ middle ++ (lineCut lines maxChars).tail ∧
      middle.length = (lineCut lines maxChars).omitted := by
  obtain ⟨rest,hrest⟩ := fitLines_prefix (lineHalf lines maxChars) lines
  have hdrop : lines.drop (fitLines (lineHalf lines maxChars) 0 lines).length = rest := by
    have hleft : (fitLines (lineHalf lines maxChars) 0 lines ++ rest).drop
        (fitLines (lineHalf lines maxChars) 0 lines).length = rest := List.drop_left
    rw [hrest] at hleft
    exact hleft
  obtain ⟨front,hfront⟩ := fitLines_prefix (lineHalf lines maxChars) rest.reverse
  have hmiddle : front.reverse ++
    (fitLines (lineHalf lines maxChars) 0 rest.reverse).reverse = rest := by
    rw [← List.reverse_append,hfront,List.reverse_reverse]
  have hlines : lines = fitLines (lineHalf lines maxChars) 0 lines ++ front.reverse ++
      (fitLines (lineHalf lines maxChars) 0 rest.reverse).reverse := by
    rw [List.append_assoc,hmiddle,hrest]
  refine ⟨front.reverse,?_,?_⟩
  · simp only [lineCut,hdrop]
    exact hlines
  · simp only [lineCut,hdrop]
    have hlen := congrArg List.length hlines
    simp only [List.length_append,List.length_reverse] at hlen ⊢
    omega

lemma lineCut_width (lines : List String) {maxChars : ℤ} (hhalf : 0 ≤ lineHalf lines maxChars) :
    (width (lineCut lines maxChars).head : ℤ) ≤ lineHalf lines maxChars ∧
      (width (lineCut lines maxChars).tail : ℤ) ≤ lineHalf lines maxChars := by
  have hhead := (fitLines_spec lines hhalf).2
  have htail := (fitLines_spec
    (lines.drop (fitLines (lineHalf lines maxChars) 0 lines).length).reverse hhalf).2
  simp only [lineCut,width_reverse]
  omega

/-- The first or the last line of a text fits in the half that its end may take. -/
def EndFits (lines : List String) (maxChars : ℤ) : Prop :=
  (size (lines.headD "") : ℤ)+1 ≤ lineHalf lines maxChars ∨
  (size (lines.getLastD "") : ℤ)+1 ≤ lineHalf lines maxChars

instance (lines : List String) (maxChars : ℤ) : Decidable (EndFits lines maxChars) :=
  inferInstanceAs (Decidable (_ ∨ _))

lemma lineCut_keeps_iff {lines : List String} (hne : lines ≠ []) (maxChars : ℤ) :
    0 < (lineCut lines maxChars).head.length+(lineCut lines maxChars).tail.length ↔
    EndFits lines maxChars := by
  obtain ⟨l,rest,rfl⟩ := List.exists_cons_of_ne_nil hne
  by_cases hfirst : fitLines (lineHalf (l :: rest) maxChars) 0 (l :: rest) = []
  · have hfit : ¬ (size l : ℤ)+1 ≤ lineHalf (l :: rest) maxChars :=
      fun h => fitLines_ne_nil.mpr h hfirst
    obtain ⟨last,front,hback⟩ := List.exists_cons_of_ne_nil
      (show (l :: rest).reverse ≠ [] by rw [ne_eq,List.reverse_eq_nil_iff];exact hne)
    have hlast : (l :: rest).getLastD "" = last := by
      have hwhole : l :: rest = front.reverse ++ [last] := by
        rw [← List.reverse_reverse (l :: rest),hback,List.reverse_cons]
      rw [hwhole]
      exact List.getLastD_concat
    have htail := @fitLines_ne_nil (lineHalf (l :: rest) maxChars) last front
    rw [← hback] at htail
    simp only [lineCut,hfirst,List.length_nil,List.drop_zero,List.length_reverse,zero_add,EndFits,
      List.headD_cons,hlast]
    rw [← htail,List.length_pos_iff]
    simp [hfit]
  · have hhead : 0 < (lineCut (l :: rest) maxChars).head.length := List.length_pos_iff.mpr hfirst
    have hfit : (size l : ℤ)+1 ≤ lineHalf (l :: rest) maxChars := fitLines_ne_nil.mp hfirst
    constructor
    · intro _
      exact .inl hfit
    · intro _
      omega

/-- Where an end fits, the halves and the notice are within the floor. -/
lemma EndFits.halves {lines : List String} {maxChars : ℤ} (h : EndFits lines maxChars) :
    0 ≤ lineHalf lines maxChars ∧
    2*lineHalf lines maxChars ≤ maxChars-size (compactionMarker lines.length)-1 := by
  have hone : 1 ≤ lineHalf lines maxChars := by
    obtain h | h := h <;> omega
  refine ⟨by omega,?_⟩
  unfold lineHalf at hone ⊢
  generalize maxChars-size (compactionMarker lines.length)-1 = x at hone ⊢
  by_cases hx : 0 ≤ x
  · rw [Int.tdiv_eq_ediv_of_nonneg hx]
    omega
  · have hneg : x.tdiv 2 = -((-x)/2) := by
      rw [← Int.tdiv_eq_ediv_of_nonneg (by omega : 0 ≤ -x),Int.neg_tdiv,neg_neg]
    omega

/-- Where an end fits, the cut stays within the floor. -/
lemma size_render_le {lines : List String} {maxChars : ℤ} (hfits : EndFits lines maxChars) :
    (size (lineCut lines maxChars).render : ℤ) ≤ maxChars := by
  obtain ⟨hhalf,htwice⟩ := hfits.halves
  obtain ⟨hhead,htail⟩ := lineCut_width lines hhalf
  have hmarker : size (compactionMarker (lineCut lines maxChars).omitted) ≤ size
    (compactionMarker lines.length) :=
    size_marker_mono (by simp only [lineCut];omega)
  have hjoin := size_intercalate_le (lineCut lines maxChars).tail
  rw [LineCut.render,size_append,size_append,size_append,size_join_lines,size_lineFeed]
  push_cast
  omega

/-- A text over the floor has lines to leave out. -/
lemma lineCut_omits {lines : List String} {maxChars : ℤ} (hover : maxChars < width lines)
    (hfits : EndFits lines maxChars) :
    0 < (lineCut lines maxChars).omitted := by
  obtain ⟨hhalf,htwice⟩ := hfits.halves
  obtain ⟨hhead,htail⟩ := lineCut_width lines hhalf
  obtain ⟨middle,hlines,hlen⟩ := lineCut_split lines maxChars
  have hwidth := congrArg width hlines
  rw [width_append,width_append] at hwidth
  rw [← hlen]
  cases middle with
  | nil =>
    rw [width_nil] at hwidth
    omega
  | cons l middle => exact Nat.succ_pos _

/-- The lines are cut if and only if there are eight and one end fits. -/
lemma cutLines_iff {text : String} {maxChars : ℤ} (hover : maxChars < size text) :
    cutLines text maxChars =
      if 8 ≤ (textLines text).length ∧ EndFits (textLines text) maxChars
      then some (lineCut (textLines text) maxChars).render else none := by
  rw [cutLines_eq]
  by_cases hfew : (textLines text).length < 8
  · rw [if_pos hfew,if_neg (by omega)]
  · rw [if_neg hfew]
    have hne : textLines text ≠ [] := by
      intro hnil
      rw [hnil] at hfew
      exact hfew (by decide)
    by_cases hfits : EndFits (textLines text) maxChars
    · have homits := lineCut_omits (by rw [width_textLines];omega) hfits
      have hsize := size_render_le hfits
      rw [if_pos ⟨homits,(lineCut_keeps_iff hne maxChars).mpr hfits⟩,if_pos ⟨by omega,hsize⟩,
        if_pos ⟨by omega,hfits⟩]
    · rw [if_neg fun h => hfits ((lineCut_keeps_iff hne maxChars).mp h.2),if_neg fun h => hfits h.2]

/-! Cutting by characters. -/

lemma length_le_size (cs : List Char) : cs.length ≤ size (String.ofList cs) := by
  induction cs with
  | nil => exact Nat.zero_le _
  | cons c cs ih =>
    rw [size_ofList] at ih ⊢
    have hpos := c.utf8Size_pos
    simp only [List.length_cons,List.map_cons,List.sum_cons]
    omega

/-- The characters kept are as many as fit, up to the bound. -/
lemma fitRunes_spec (runes : List Char) {maxChars : ℤ} (hmax : 0 ≤ maxChars) (k : ℕ) :
    fitRunes runes maxChars k ≤ k ∧
    (size (String.ofList (runes.take (fitRunes runes maxChars k))) : ℤ) ≤ maxChars ∧
    (fitRunes runes maxChars k = k ∨
      maxChars < size (String.ofList (runes.take (fitRunes runes maxChars k+1)))) := by
  induction k with
  | zero =>
    refine ⟨le_rfl,?_,.inl rfl⟩
    show (size (String.ofList []) : ℤ) ≤ maxChars
    rw [String.ofList_nil]
    exact hmax
  | succ k ih =>
    unfold fitRunes
    split
    next hover =>
      obtain ⟨hle,hsize,hmore⟩ := ih
      refine ⟨Nat.le_succ_of_le hle,hsize,.inr ?_⟩
      obtain heq | hmore := hmore
      · rw [heq]
        exact hover
      · exact hmore
    next hfits => exact ⟨le_rfl,not_lt.mp hfits,.inl rfl⟩

lemma fitRunes_fits {runes : List Char} {maxChars : ℤ} {k : ℕ}
    (h : (size (String.ofList (runes.take k)) : ℤ) ≤ maxChars) :
    fitRunes runes maxChars k = k := by
  cases k with
  | zero => rfl
  | succ k => rw [fitRunes,if_neg (not_lt.mpr h)]

/-- The leading characters of a text that fit. -/
def keptRunes (text : String) (maxChars : ℤ) : String :=
  String.ofList (text.toList.take
    (fitRunes text.toList maxChars (min maxChars.toNat text.toList.length)))

def runeCut (text : String) (maxChars : ℤ) : String :=
  keptRunes text maxChars ++ "\n" ++ compactionMarker 0

lemma size_runeCut (text : String) (maxChars : ℤ) :
    size (runeCut text maxChars) = size (keptRunes text maxChars)+46 := by
  have hzero : (0 : ℕ).repr.length = 1 := by decide
  rw [runeCut,size_append,size_append,size_lineFeed,size_marker,hzero]

lemma size_keptRunes_le (text : String) {maxChars : ℤ} (hmax : 0 ≤ maxChars) :
    (size (keptRunes text maxChars) : ℤ) ≤ maxChars :=
  (fitRunes_spec text.toList hmax _).2.1

/-- Of a text over the floor, all but three bytes of the floor are kept. -/
lemma le_size_keptRunes {text : String} {maxChars : ℤ} (hmax : 0 ≤ maxChars)
    (hover : maxChars < size text) :
    maxChars-3 ≤ size (keptRunes text maxChars) := by
  obtain ⟨hle,hfit,hend⟩ := fitRunes_spec text.toList hmax (min maxChars.toNat text.toList.length)
  unfold keptRunes
  obtain hall | hmore := hend
  · rw [hall] at hfit ⊢
    by_cases hlong : maxChars.toNat ≤ text.toList.length
    · have hcount := length_le_size (text.toList.take (min maxChars.toNat text.toList.length))
      rw [List.length_take] at hcount
      omega
    · rw [Nat.min_eq_right (not_le.mp hlong).le,List.take_length,String.ofList_toList] at hfit
      omega
  · generalize fitRunes text.toList maxChars (min maxChars.toNat text.toList.length) =
      k at hle hmore ⊢
    have hone : size (String.ofList (text.toList.take (k+1))) ≤ size
      (String.ofList (text.toList.take k))+4 := by
      rw [List.take_add_one,size_ofList,size_ofList,List.map_append,List.sum_append]
      cases hk : text.toList[k]? with
      | none => simp
      | some c =>
        have hfour := c.utf8Size_le_four
        simpa using hfour
    omega

/-- What becomes of a text over the floor. -/
lemma compactToolResultText_over {text : String} {maxChars : ℤ} (hpos : 0 < maxChars)
    (hover : maxChars < size text) :
    compactToolResultText text maxChars =
      if 8 ≤ (textLines text).length ∧ EndFits (textLines text) maxChars
      then (lineCut (textLines text) maxChars).render
      else if size text ≤ size (keptRunes text maxChars)+46 then
        text else runeCut text maxChars := by
  have hcut := cutLines_iff hover
  unfold compactToolResultText
  rw [if_neg (by omega)]
  by_cases hlines : 8 ≤ (textLines text).length ∧ EndFits (textLines text) maxChars
  · rw [if_pos hlines] at hcut ⊢
    rw [hcut]
  · rw [if_neg hlines] at hcut ⊢
    rw [hcut,← size_runeCut]
    rfl

lemma compactToolResultText_within {text : String} {maxChars : ℤ} (h : (size text : ℤ) ≤ maxChars) :
    compactToolResultText text maxChars = text := by
  unfold compactToolResultText
  rw [if_pos (.inr h)]

/-- A result is never longer than the text, within the floor where it differs, and stable. -/
def RespectsFloor (text : String) (maxChars : ℤ) : Prop :=
  size (compactToolResultText text maxChars) ≤ size text ∧
  (compactToolResultText text maxChars ≠ text →
    (size (compactToolResultText text maxChars) : ℤ) ≤ maxChars) ∧
  compactToolResultText (compactToolResultText text maxChars) maxChars =
  compactToolResultText text maxChars

/-- The text is within the floor, or one end of its eight lines or more fits, or what stands after
the characters that fit is no longer than the notice. -/
def NoRuneCut (text : String) (maxChars : ℤ) : Prop :=
  (size text : ℤ) ≤ maxChars ∨ (8 ≤ (textLines text).length ∧ EndFits (textLines text) maxChars) ∨
    size text ≤ size (keptRunes text maxChars)+46

/-- Shortening respects its floor and is idempotent exactly where no cut by characters is made: such
a cut comes out over the floor by the notice it appends. -/
theorem respectsFloor_iff (text : String) (maxChars : ℤ) (hmax : 64 ≤ maxChars) :
    RespectsFloor text maxChars ↔ NoRuneCut text maxChars := by
  by_cases hwithin : (size text : ℤ) ≤ maxChars
  · have hsame := compactToolResultText_within hwithin
    refine ⟨fun _ => .inl hwithin,fun _ => ?_⟩
    unfold RespectsFloor
    rw [hsame,hsame]
    exact ⟨le_rfl,fun h => (h rfl).elim,rfl⟩
  · have hover : maxChars < size text := not_le.mp hwithin
    have hout := compactToolResultText_over (by omega) hover
    by_cases hlines : 8 ≤ (textLines text).length ∧ EndFits (textLines text) maxChars
    · have hsize := size_render_le hlines.2
      rw [if_pos hlines] at hout
      refine ⟨fun _ => .inr (.inl hlines),fun _ => ?_⟩
      unfold RespectsFloor
      rw [hout]
      exact ⟨by omega,fun _ => hsize,compactToolResultText_within hsize⟩
    · rw [if_neg hlines] at hout
      by_cases hshort : size text ≤ size (keptRunes text maxChars)+46
      · rw [if_pos hshort] at hout
        refine ⟨fun _ => .inr (.inr hshort),fun _ => ?_⟩
        unfold RespectsFloor
        rw [hout,hout]
        exact ⟨le_rfl,fun h => (h rfl).elim,rfl⟩
      · rw [if_neg hshort] at hout
        have hkept := le_size_keptRunes (by omega) hover
        have hcut := size_runeCut text maxChars
        constructor
        · rintro ⟨-,hfloor,-⟩
          rw [hout] at hfloor
          have hdiffers : runeCut text maxChars ≠ text := by
            intro heq
            rw [heq] at hcut
            omega
          have hbound := hfloor hdiffers
          omega
        · rintro (h | h | h)
          · exact (hwithin h).elim
          · exact (hlines h).elim
          · exact (hshort h).elim

/-- Ten lines of seven letters. -/
def tenLines : String := "\n".intercalate (List.replicate 10 "letters")

/-- Asked for 64 bytes, ten lines keep the first and the last. -/
theorem respectsFloor_iff_lines : (64 : ℤ) ≤ 64 ∧ RespectsFloor tenLines 64 :=
  ⟨le_rfl,(respectsFloor_iff tenLines 64 le_rfl).mpr (.inr (.inl (by decide +kernel)))⟩

/-- One line of two hundred letters. -/
def longLine : String := String.ofList (List.replicate 200 'a')

/-- Asked for 64 bytes, one long line comes out at 110. -/
theorem rune_cut_over_floor :
    size (compactToolResultText longLine 64) = 110 ∧ ¬ RespectsFloor longLine 64 := by
  have hone : 'a'.utf8Size = 1 := by decide
  have hchars : longLine.toList = List.replicate 200 'a' := String.toList_ofList
  have hlong : size longLine = 200 := size_replicate hone 200
  have htake : size (String.ofList ((List.replicate 200 'a').take 64)) = 64 := by
    simp only [List.take_replicate,size_replicate hone,Nat.reduceLeDiff,inf_of_le_left]
  have hkept : size (keptRunes longLine 64) = 64 := by
    have hfit : fitRunes (List.replicate 200 'a') 64 64 = 64 :=
      fitRunes_fits (by rw [htake]; decide)
    simp only [keptRunes,hchars,List.length_replicate,Int.reduceToNat,Nat.reduceLeDiff,
      inf_of_le_left,hfit,htake]
  have hlines : ¬ 8 ≤ (textLines longLine).length := by
    rw [textLines,hchars,List.length_map]
    decide +kernel
  have hsize : size (compactToolResultText longLine 64) = 110 := by
    rw [compactToolResultText_over (by decide) (by rw [hlong]; decide),if_neg (fun h => hlines h.1),
      if_neg (by rw [hlong,hkept]; decide),size_runeCut,hkept]
  refine ⟨hsize,?_⟩
  rintro ⟨-,hfloor,-⟩
  have hdiffers : compactToolResultText longLine 64 ≠ longLine := by
    intro heq
    rw [heq,hlong] at hsize
    exact absurd hsize (by decide)
  have hbound := hfloor hdiffers
  rw [hsize] at hbound
  exact absurd hbound (by decide)

end Manvi.Agent
