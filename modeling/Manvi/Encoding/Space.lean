import Mathlib

/-! White space at the ends of a text in UTF-8, as bytes.TrimSpace and strings.TrimSpace cut it
off. -/
namespace Manvi.Encoding

abbrev Bytes := List UInt8

/-- The bytes of a text in ASCII. -/
def ascii (text : String) : Bytes := text.toList.map (fun c => c.toNat.toUInt8)

/-- The encodings of the code points that count as white space. -/
def spaces : List Bytes :=
  [[9],[10],[11],[12],[13],[32],[0xC2,0x85],[0xC2,0xA0],[0xE1,0x9A,0x80],
   [0xE2,0x80,0x80],[0xE2,0x80,0x81],[0xE2,0x80,0x82],[0xE2,0x80,0x83],[0xE2,0x80,0x84],
   [0xE2,0x80,0x85],
   [0xE2,0x80,0x86],[0xE2,0x80,0x87],[0xE2,0x80,0x88],[0xE2,0x80,0x89],[0xE2,0x80,0x8A],
   [0xE2,0x80,0xA8],[0xE2,0x80,0xA9],[0xE2,0x80,0xAF],[0xE2,0x81,0x9F],[0xE3,0x80,0x80]]

/-- Take words of a list off the front of a text, as long as one is there. -/
def trimWords (words : List Bytes) : ℕ → Bytes → Bytes
  | 0,text => text
  | fuel+1,text => match words.find? (fun w => w.isPrefixOf text) with
    | none => text
    | some w => trimWords words fuel (text.drop w.length)

def trimLeftSpace (text : Bytes) : Bytes := trimWords spaces text.length text

def trimRightSpace (text : Bytes) : Bytes :=
  (trimWords (spaces.map List.reverse) text.length text.reverse).reverse

def trimSpace (text : Bytes) : Bytes := trimRightSpace (trimLeftSpace text)

/-- The words of a text between white space, with the word that was begun. -/
def fieldsFrom : ℕ → Bytes → Bytes → List Bytes
  | 0,word,_ => if word = [] then [] else [word]
  | _,word,[] => if word = [] then [] else [word]
  | fuel+1,word,b :: text => match spaces.find? (fun w => w.isPrefixOf (b :: text)) with
    | some w => (if word = [] then [] else [word]) ++ fieldsFrom fuel [] ((b :: text).drop w.length)
    | none => fieldsFrom fuel (word ++ [b]) text

/-- The words of a text, as strings.Fields gives them. -/
def fields (text : Bytes) : List Bytes := fieldsFrom text.length [] text

def isDigit (b : UInt8) : Bool := 48 ≤ b ∧ b ≤ 57

/-- A decimal number with an optional sign within 64 bits, as strconv.ParseInt reads it. -/
def parseInt64 (text : Bytes) : Option ℤ :=
  let negative := text.head? = some 45
  let digits := if text.head? = some 43 ∨ text.head? = some 45 then text.tail else text
  if digits = [] ∨ ¬ digits.all isDigit then none
  else
    let n : ℕ := digits.foldl (fun n b => n*10+(b.toNat-48)) 0
    if negative then (if n ≤ 2^63 then some (-(n : ℤ)) else none)
    else if n < 2^63 then some (n : ℤ) else none

/-- A text that none of some words opens stays as it is. -/
lemma trimWords_of_none {words : List Bytes} {text : Bytes} (h : ∀ w ∈ words, ¬ w <+: text)
    (fuel : ℕ) :
    trimWords words fuel text = text := by
  cases fuel with
  | zero => rfl
  | succ fuel =>
    have hfind : words.find? (fun w => w.isPrefixOf text) = none := by
      rw [List.find?_eq_none]
      intro w hw
      rw [List.isPrefixOf_iff_prefix]
      exact h w hw
    rw [trimWords,hfind]

/-- Once trimmed, no word opens the text. -/
lemma trimWords_none {words : List Bytes} (hwords : ∀ w ∈ words, w ≠ []) {fuel : ℕ} {text : Bytes}
    (hf : text.length ≤ fuel) : ∀ w ∈ words, ¬ w <+: trimWords words fuel text := by
  induction fuel generalizing text with
  | zero =>
    intro w hw hpre
    have hnil : text = [] := List.length_eq_zero_iff.mp (by omega)
    rw [trimWords,hnil,List.prefix_nil] at hpre
    exact hwords w hw hpre
  | succ fuel ih =>
    rw [trimWords]
    cases hfind : words.find? (fun w => w.isPrefixOf text) with
    | none =>
      intro w hw hpre
      rw [List.find?_eq_none] at hfind
      exact hfind w hw (List.isPrefixOf_iff_prefix.mpr hpre)
    | some w =>
      have hlen := List.length_pos_iff.mpr (hwords w (List.mem_of_find?_eq_some hfind))
      apply ih
      rw [List.length_drop]
      omega

lemma trimWords_suffix (words : List Bytes) (fuel : ℕ) (text : Bytes) :
    trimWords words fuel text <:+ text := by
  induction fuel generalizing text with
  | zero => exact List.suffix_rfl
  | succ fuel ih =>
    rw [trimWords]
    cases words.find? (fun w => w.isPrefixOf text) with
    | none => exact List.suffix_rfl
    | some w => exact (ih _).trans (List.drop_suffix _ _)

/-- What is trimmed off is made of the words. -/
lemma trimWords_mem (words : List Bytes) (fuel : ℕ) (text : Bytes) :
    ∀ b ∈ text, b ∈ trimWords words fuel text ∨ ∃ w ∈ words, b ∈ w := by
  induction fuel generalizing text with
  | zero =>
    intro b hb
    exact .inl hb
  | succ fuel ih =>
    intro b hb
    rw [trimWords]
    cases hfind : words.find? (fun w => w.isPrefixOf text) with
    | none => exact .inl hb
    | some w =>
      have hpre : w <+: text := by
        have hp := List.find?_some hfind
        rwa [List.isPrefixOf_iff_prefix] at hp
      obtain ⟨rest,hrest⟩ := hpre
      rw [← hrest,List.mem_append] at hb
      cases hb with
      | inl hb => exact .inr ⟨w,List.mem_of_find?_eq_some hfind,hb⟩
      | inr hb =>
        refine ih _ b ?_
        rw [← hrest,List.drop_left]
        exact hb

/-- A text of which nothing is left is white space. -/
lemma space_of_trimSpace_nil {text : Bytes} (h : trimSpace text = []) :
    ∀ b ∈ text, ∃ w ∈ spaces, b ∈ w := by
  intro b hb
  cases trimWords_mem spaces text.length text b hb with
  | inr hw => exact hw
  | inl hleft =>
    have hright := trimWords_mem (spaces.map List.reverse) (trimLeftSpace text).length
      (trimLeftSpace text).reverse b
      (List.mem_reverse.mpr hleft)
    cases hright with
    | inl hmem =>
      rw [trimSpace,trimRightSpace,List.reverse_eq_nil_iff] at h
      rw [h] at hmem
      cases hmem
    | inr hw =>
      obtain ⟨w,hw,hbw⟩ := hw
      obtain ⟨v,hv,rfl⟩ := List.mem_map.mp hw
      exact ⟨v,hv,List.mem_reverse.mp hbw⟩

@[simp] lemma trimSpace_nil : trimSpace [] = [] := rfl

/-- A space that opens a text is cut off. -/
@[simp] lemma trimSpace_cons (text : Bytes) : trimSpace (32 :: text) = trimSpace text := by
  have hleft : trimLeftSpace (32 :: text) = trimLeftSpace text := by
    have hfind : spaces.find? (fun w => w.isPrefixOf (32 :: text)) = some [32] := by
      simp [spaces,List.isPrefixOf]
    rw [trimLeftSpace,List.length_cons,trimWords,hfind]
    rfl
  rw [trimSpace,hleft,trimSpace]

lemma trimRightSpace_begins (text : Bytes) : trimRightSpace text <+: text := by
  have h := trimWords_suffix (spaces.map List.reverse) text.length text.reverse
  rw [trimRightSpace]
  simpa using List.reverse_prefix.mpr h

/-- What is trimmed stays as it is. -/
lemma trimSpace_trimSpace (text : Bytes) : trimSpace (trimSpace text) = trimSpace text := by
  have hspaces : ∀ w ∈ spaces, w ≠ [] := by decide
  have hreversed : ∀ w ∈ spaces.map List.reverse, w ≠ [] := by decide
  have hleft : trimLeftSpace (trimSpace text) = trimSpace text := by
    apply trimWords_of_none
    intro w hw hpre
    exact trimWords_none hspaces le_rfl w hw
      (hpre.trans (trimRightSpace_begins (trimLeftSpace text)))
  rw [trimSpace,hleft,trimSpace,trimRightSpace,trimRightSpace,List.reverse_reverse]
  rw [trimWords_of_none (trimWords_none hreversed (by simp))]

namespace Runes

/-- The code points that unicode.IsSpace takes for white space. -/
def isSpace (c : Char) : Bool :=
  let n := c.toNat
  (9 ≤ n && n ≤ 13) || n = 32 || n = 0x85 || n = 0xA0 || n = 0x1680 || (0x2000 ≤ n && n ≤ 0x200A) ||
    n = 0x2028 || n = 0x2029 || n = 0x202F || n = 0x205F || n = 0x3000

/-- A text without the white space at its ends. -/
def trimSpace (text : List Char) : List Char :=
  ((text.dropWhile isSpace).reverse.dropWhile isSpace).reverse

/-- What is trimmed stands in the text, between white space. -/
lemma trimSpace_split (text : List Char) :
    ∃ a b, text = a ++ trimSpace text ++ b ∧ a.all isSpace = true ∧ b.all isSpace = true := by
  refine ⟨text.takeWhile isSpace,((text.dropWhile isSpace).reverse.takeWhile isSpace).reverse,?_,
    ?_,?_⟩
  · have hback := List.takeWhile_append_dropWhile (p := isSpace)
      (l := (text.dropWhile isSpace).reverse)
    have hfront := List.takeWhile_append_dropWhile (p := isSpace) (l := text)
    have hrest : trimSpace text ++ ((text.dropWhile isSpace).reverse.takeWhile isSpace).reverse =
        text.dropWhile isSpace := by
      rw [trimSpace,← List.reverse_append,hback,List.reverse_reverse]
    rw [List.append_assoc,hrest,hfront]
  · exact List.all_eq_true.mpr fun c hc => List.mem_takeWhile_imp hc
  · rw [List.all_reverse]
    exact List.all_eq_true.mpr fun c hc => List.mem_takeWhile_imp hc

/-- A text that opens with no white space keeps its first character. -/
lemma trimSpace_cons {c : Char} (h : isSpace c = false) (rest : List Char) :
    ∃ rest', trimSpace (c :: rest) = c :: rest' := by
  have hc : ¬ isSpace c = true := by rw [h]; decide
  unfold trimSpace
  rw [List.dropWhile_cons_of_neg hc,List.reverse_cons]
  have hlast : ∀ xs : List Char, ∃ ys, (xs ++ [c]).dropWhile isSpace = ys ++ [c] := by
    intro xs
    induction xs with
    | nil => exact ⟨[],by rw [List.nil_append,List.dropWhile_cons_of_neg hc]⟩
    | cons x xs ih =>
      by_cases hx : isSpace x = true
      · rw [List.cons_append,List.dropWhile_cons_of_pos hx]
        exact ih
      · exact ⟨x :: xs,by rw [List.cons_append,List.dropWhile_cons_of_neg hx]⟩
  obtain ⟨ys,hys⟩ := hlast rest.reverse
  exact ⟨ys.reverse,by rw [hys];simp⟩

end Runes

end Manvi.Encoding
