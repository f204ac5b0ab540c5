import Manvi.OpenAICompat.JsonRepair

/-! Repairing arguments never touches a string: where a repair ends in a document, its walks saw the
strings that the document has. -/
namespace Manvi.OpenAICompat
open Manvi.Encoding Manvi.Encoding.Json

/-- Where a walk stands when it has met only double quotes. -/
def quoteOf : Lex → Quote
  | .outside => none
  | .inside e => some ('"',e)

lemma inString_quote (e : Bool) (c : Char) :
    inString '"' e c = quoteOf ((Lex.inside e).step c) := by
  cases e with
  | true => rfl
  | false =>
    unfold inString Lex.step
    by_cases hb : c = '\\'
    · simp [hb,quoteOf]
    · by_cases hq : c = '"'
      · simp [hq,quoteOf]
      · simp [hb,hq,quoteOf]

/-- No single quote stands outside the strings of a text. -/
def NoApostrophe (s : Lex) (cs : List Char) : Prop := Between (fun c _ => c ≠ '\x27') s cs

lemma noApostrophe_of_tidy {s : Lex} {cs : List Char} (h : Between Tidy s cs) :
    NoApostrophe s cs := by
  refine h.imp ?_
  rintro c rest htidy rfl
  exact absurd htidy.1 (by decide)

lemma tokensFrom_outside (t t' cs : List Char) :
    tokensFrom .outside t cs = tokensFrom .outside t' cs := by
  cases cs with
  | nil => rfl
  | cons c cs => rfl

/-- Copying one character keeps the strings. -/
lemma tokensFrom_cons {s : Lex} {c : Char} {a b : List Char}
    (h : ∀ t, tokensFrom (s.step c) t a = tokensFrom (s.step c) t b)
    (t : List Char) : tokensFrom s t (c :: a) = tokensFrom s t (c :: b) := by
  cases s with
  | outside => exact h [c]
  | inside e =>
    unfold tokensFrom
    split
    next hout =>
      rw [hout] at h
      rw [h []]
    next => exact h (t ++ [c])

/-! Dropping commas. -/

lemma stripFrom_inside (e : Bool) (c : Char) (cs : List Char) :
    stripFrom (quoteOf (.inside e)) (c :: cs) = c :: stripFrom
    (quoteOf ((Lex.inside e).step c)) cs := by
  rw [← inString_quote]
  rfl

lemma stripFrom_quote (cs : List Char) :
    stripFrom (quoteOf .outside) ('"' :: cs) = '"' :: stripFrom
    (quoteOf (Lex.outside.step '"')) cs := rfl

lemma stripFrom_comma {cs : List Char} (h : closes cs = true) :
    stripFrom (quoteOf .outside) (',' :: cs) = stripFrom (quoteOf .outside) cs := by
  simp [quoteOf,stripFrom,h]

lemma stripFrom_other {c : Char} {cs : List Char} (hq : c ≠ '"') (ha : c ≠ '\x27')
    (hc : ¬ (c = ',' ∧ closes cs = true)) :
    stripFrom (quoteOf .outside) (c :: cs) = c :: stripFrom (quoteOf (Lex.outside.step c)) cs := by
  rw [Lex.step_outside hq]
  simp only [quoteOf,stripFrom]
  rw [if_neg (by simp [hq,ha]),if_neg hc]

/-- What the walk over commas leaves, when no single quote is left outside strings. -/
lemma stripFrom_sound {s : Lex} {cs : List Char} (h : NoApostrophe s (stripFrom (quoteOf s) cs)) :
    CommasDropped s cs (stripFrom (quoteOf s) cs) ∧ NoApostrophe s cs ∧
      ∀ t, tokensFrom s t (stripFrom (quoteOf s) cs) = tokensFrom s t cs := by
  induction cs generalizing s with
  | nil =>
    have hnil : stripFrom (quoteOf s) [] = [] := by
      unfold stripFrom
      rfl
    rw [hnil]
    exact ⟨.nil s,trivial,fun t => rfl⟩
  | cons c cs ih =>
    have hkeep : stripFrom (quoteOf s) (c :: cs) = c :: stripFrom (quoteOf (s.step c)) cs →
        CommasDropped s (c :: cs) (stripFrom (quoteOf s) (c :: cs)) ∧ NoApostrophe s (c :: cs) ∧
          ∀ t, tokensFrom s t (stripFrom (quoteOf s) (c :: cs)) = tokensFrom s t (c :: cs) := by
      intro heq
      rw [heq] at h ⊢
      obtain ⟨hdrop,hno,htok⟩ := ih h.2
      exact ⟨.keep c hdrop,⟨h.1,hno⟩,tokensFrom_cons htok⟩
    cases s with
    | inside e => exact hkeep (stripFrom_inside e c cs)
    | outside =>
      by_cases hq : c = '"'
      · subst hq
        exact hkeep (stripFrom_quote cs)
      · by_cases ha : c = '\x27'
        · subst ha
          exact (h.1 rfl rfl).elim
        · by_cases hc : c = ',' ∧ closes cs = true
          · obtain ⟨rfl,hclose⟩ := hc
            rw [stripFrom_comma hclose] at h ⊢
            obtain ⟨hdrop,hno,htok⟩ := ih h
            refine ⟨.drop hclose hdrop,⟨fun _ => ha,hno⟩,?_⟩
            intro t
            rw [htok]
            exact tokensFrom_outside t [','] cs
          · exact hkeep (stripFrom_other hq ha hc)

/-- A document has no comma to drop. -/
lemma stripFrom_tidy {s : Lex} {cs : List Char} (h : Between Tidy s cs) :
    stripFrom (quoteOf s) cs = cs := by
  induction cs generalizing s with
  | nil =>
    unfold stripFrom
    rfl
  | cons c cs ih =>
    have hrest := ih h.2
    cases s with
    | inside e => rw [stripFrom_inside,hrest]
    | outside =>
      have htidy := h.1 rfl
      by_cases hq : c = '"'
      · subst hq
        rw [stripFrom_quote,hrest]
      · have ha : c ≠ '\x27' := by
          rintro rfl
          exact absurd htidy.1 (by decide)
        have hc : ¬ (c = ',' ∧ closes cs = true) := by
          rintro ⟨rfl,hclose⟩
          obtain ⟨d,t,hd,hb,hk⟩ := htidy.2 rfl
          simp [closes,hd,hb,hk] at hclose
        rw [stripFrom_other hq ha hc,hrest]

/-! Replacing a word. -/

/-- A word without quotes, that opens with a character no document has outside strings. -/
structure Foreign (oldWord : List Char) : Prop where
  opens : ∃ c w, oldWord = c :: w ∧ structural c = false
  unquoted : ∀ c ∈ oldWord, c ≠ '"' ∧ c ≠ '\x27'

section
variable {oldWord newWord : List Char}

lemma replaceFrom_inside (prev : Option Char) (e : Bool) (c : Char) (cs : List Char) :
    replaceFrom oldWord newWord 0 prev (quoteOf (.inside e)) (c :: cs) =
      c :: replaceFrom oldWord newWord 0 (some c) (quoteOf ((Lex.inside e).step c)) cs := by
  rw [← inString_quote]
  simp only [quoteOf,replaceFrom]

lemma replaceFrom_quote (prev : Option Char) (cs : List Char) :
    replaceFrom oldWord newWord 0 prev (quoteOf .outside) ('"' :: cs) =
      '"' :: replaceFrom oldWord newWord 0 (some '"') (quoteOf (Lex.outside.step '"')) cs := by
  simp [quoteOf,replaceFrom,Lex.step]

/-- The test for a bare word at the front of a text. -/
def bareAt (oldWord : List Char) (prev : Option Char) (text : List Char) : Prop :=
  oldWord.isPrefixOf text = true ∧ ¬ prev.any isIdentChar = true ∧
  ¬ (text[oldWord.length]?).any isIdentChar = true

lemma replaceFrom_other {prev : Option Char} {c : Char} {cs : List Char} (hq : c ≠ '"')
    (ha : c ≠ '\x27')
    (hw : ¬ bareAt oldWord prev (c :: cs)) :
    replaceFrom oldWord newWord 0 prev (quoteOf .outside) (c :: cs) =
      c :: replaceFrom oldWord newWord 0 (some c) (quoteOf (Lex.outside.step c)) cs := by
  rw [Lex.step_outside hq]
  unfold bareAt at hw
  simp only [quoteOf,replaceFrom]
  rw [if_neg (by simp [hq,ha]),if_neg hw]

/-- A replaced word is passed over. -/
lemma replaceFrom_skip (prev : Option Char) (q : Quote) (w cs : List Char) :
    replaceFrom oldWord newWord w.length prev q (w ++ cs) =
      replaceFrom oldWord newWord 0 (w.getLast?.or prev) q cs := by
  induction w generalizing prev with
  | nil => rfl
  | cons c w ih =>
    rw [List.length_cons,List.cons_append,replaceFrom,ih]
    cases w with
    | nil => rfl
    | cons d w =>
      rw [List.getLast?_cons_cons,List.getLast?_eq_some_getLast (List.cons_ne_nil d w)]
      rfl

lemma replaceFrom_word {prev : Option Char} {cs : List Char} (hword : Foreign oldWord)
    (hw : bareAt oldWord prev (oldWord ++ cs)) :
    replaceFrom oldWord newWord 0 prev (quoteOf .outside) (oldWord ++ cs) =
      newWord ++ replaceFrom oldWord newWord 0 oldWord.getLast? (quoteOf .outside) cs := by
  obtain ⟨⟨c,w,rfl,-⟩,hplain⟩ := hword
  obtain ⟨hq,ha⟩ := hplain c List.mem_cons_self
  have hskip : replaceFrom (c :: w) newWord w.length (some c) none (w ++ cs) =
      replaceFrom (c :: w) newWord 0 (w.getLast?.or (some c)) none cs :=
      replaceFrom_skip (some c) none w cs
  rw [List.cons_append] at hw ⊢
  unfold bareAt at hw
  simp only [quoteOf,replaceFrom]
  rw [if_neg (by simp [hq,ha]),if_pos hw,List.length_cons,Nat.add_sub_cancel,hskip]
  cases w with
  | nil => rfl
  | cons d w =>
    rw [List.getLast?_cons_cons,List.getLast?_eq_some_getLast (List.cons_ne_nil d w)]
    rfl

lemma noApostrophe_word {w cs : List Char} (hw : ∀ c ∈ w, c ≠ '"' ∧ c ≠ '\x27') :
    NoApostrophe .outside (w ++ cs) ↔ NoApostrophe .outside cs := by
  induction w with
  | nil => rfl
  | cons c w ih =>
    obtain ⟨hq,ha⟩ := hw c List.mem_cons_self
    have hrest := ih fun d hd => hw d (List.mem_cons_of_mem c hd)
    constructor
    · intro h
      have h2 := h.2
      rw [Lex.step_outside hq] at h2
      exact hrest.mp h2
    · intro h
      refine ⟨fun _ => ha,?_⟩
      rw [Lex.step_outside hq]
      exact hrest.mpr h

lemma tokensFrom_word {w : List Char} (hw : ∀ c ∈ w, c ≠ '"' ∧ c ≠ '\x27') (t cs : List Char) :
    tokensFrom .outside t (w ++ cs) = tokensFrom .outside t cs := by
  induction w generalizing t with
  | nil => rfl
  | cons c w ih =>
    obtain ⟨hq,-⟩ := hw c List.mem_cons_self
    rw [List.cons_append,tokensFrom,Lex.step_outside hq,
      ih fun d hd => hw d (List.mem_cons_of_mem c hd)]
    exact tokensFrom_outside [c] t cs

/-- What the walk over a word leaves, when no single quote is left outside strings. -/
lemma replaceFrom_sound (hold : Foreign oldWord) (hnew : ∀ c ∈ newWord, c ≠ '"' ∧ c ≠ '\x27')
    (n : ℕ) {s : Lex}
    {prev : Option Char} {cs : List Char} (hn : cs.length ≤ n)
    (h : NoApostrophe s (replaceFrom oldWord newWord 0 prev (quoteOf s) cs)) :
    WordReplaced oldWord newWord s prev cs (replaceFrom oldWord newWord 0 prev (quoteOf s) cs) ∧
    NoApostrophe s cs ∧
      ∀ t, tokensFrom s t (replaceFrom oldWord newWord 0 prev (quoteOf s) cs) =
      tokensFrom s t cs := by
  induction n generalizing s prev cs with
  | zero =>
    have hnil := List.length_eq_zero_iff.mp (Nat.le_zero.mp hn)
    subst hnil
    rw [replaceFrom]
    exact ⟨.nil s prev,trivial,fun t => rfl⟩
  | succ n ih =>
    cases cs with
    | nil =>
      rw [replaceFrom]
      exact ⟨.nil s prev,trivial,fun t => rfl⟩
    | cons c cs =>
      have hkeep : replaceFrom oldWord newWord 0 prev (quoteOf s) (c :: cs) =
          c :: replaceFrom oldWord newWord 0 (some c) (quoteOf (s.step c)) cs →
          WordReplaced oldWord newWord s prev (c :: cs) (replaceFrom oldWord newWord 0 prev
            (quoteOf s) (c :: cs)) ∧
            NoApostrophe s (c :: cs) ∧
            ∀ t, tokensFrom s t (replaceFrom oldWord newWord 0 prev (quoteOf s) (c :: cs)) =
            tokensFrom s t (c :: cs) := by
        intro heq
        rw [heq] at h ⊢
        obtain ⟨hrep,hno,htok⟩ := ih (Nat.le_of_succ_le_succ hn) h.2
        exact ⟨.keep c hrep,⟨h.1,hno⟩,tokensFrom_cons htok⟩
      cases s with
      | inside e => exact hkeep (replaceFrom_inside prev e c cs)
      | outside =>
        by_cases hq : c = '"'
        · subst hq
          exact hkeep (replaceFrom_quote prev cs)
        · by_cases ha : c = '\x27'
          · subst ha
            exfalso
            simp only [quoteOf,replaceFrom] at h
            rw [if_pos (by simp)] at h
            exact h.1 rfl rfl
          · by_cases hw : bareAt oldWord prev (c :: cs)
            · obtain ⟨rest,hrest⟩ := List.isPrefixOf_iff_prefix.mp hw.1
              rw [← hrest] at h hw hn ⊢
              rw [replaceFrom_word hold hw] at h ⊢
              have hshort : rest.length ≤ n := by
                obtain ⟨⟨d,w,hd,-⟩,-⟩ := hold
                rw [hd] at hn
                simp only [List.length_append,List.length_cons] at hn
                omega
              obtain ⟨hrep,hno,htok⟩ := ih hshort ((noApostrophe_word hnew).mp h)
              refine ⟨.word (by simpa using hw.2.1) ?_ hrep,
                (noApostrophe_word hold.unquoted).mpr hno,?_⟩
              · have hnext := hw.2.2
                rw [List.getElem?_append_right le_rfl,Nat.sub_self,
                  ← List.head?_eq_getElem?] at hnext
                simpa using hnext
              · intro t
                rw [tokensFrom_word hnew,tokensFrom_word hold.unquoted,htok]
            · exact hkeep (replaceFrom_other hq ha hw)

/-- A document has no such word to replace. -/
lemma replaceFrom_tidy (hold : Foreign oldWord) {s : Lex} {prev : Option Char} {cs : List Char}
    (h : Between Tidy s cs) : replaceFrom oldWord newWord 0 prev (quoteOf s) cs = cs := by
  induction cs generalizing s prev with
  | nil => rw [replaceFrom]
  | cons c cs ih =>
    cases s with
    | inside e => rw [replaceFrom_inside,ih h.2]
    | outside =>
      have htidy := h.1 rfl
      by_cases hq : c = '"'
      · subst hq
        rw [replaceFrom_quote,ih h.2]
      · have ha : c ≠ '\x27' := by
          rintro rfl
          exact absurd htidy.1 (by decide)
        have hw : ¬ bareAt oldWord prev (c :: cs) := by
          rintro ⟨hpre,-⟩
          obtain ⟨⟨d,w,rfl,hd⟩,-⟩ := hold
          obtain ⟨rest,hrest⟩ := List.isPrefixOf_iff_prefix.mp hpre
          cases hrest
          rw [htidy.1] at hd
          cases hd
        rw [replaceFrom_other hq ha hw,ih h.2]

end

lemma foreign_true : Foreign ['T','r','u','e'] := ⟨⟨'T',_,rfl,by decide⟩,by simp⟩

lemma foreign_false : Foreign ['F','a','l','s','e'] := ⟨⟨'F',_,rfl,by decide⟩,by simp⟩

lemma foreign_none : Foreign ['N','o','n','e'] := ⟨⟨'N',_,rfl,by decide⟩,by simp⟩

/-! The passes. -/

lemma CommasDropped.refl (s : Lex) (cs : List Char) : CommasDropped s cs cs := by
  induction cs generalizing s with
  | nil => exact .nil s
  | cons c cs ih => exact .keep c (ih _)

lemma WordReplaced.refl (oldWord newWord : List Char) (s : Lex) (prev : Option Char)
    (cs : List Char) :
    WordReplaced oldWord newWord s prev cs cs := by
  induction cs generalizing s prev with
  | nil => exact .nil s prev
  | cons c cs ih => exact .keep c (ih _ _)

lemma stripTrailingCommas_sound {text : List Char}
    (h : NoApostrophe .outside (stripTrailingCommas text)) :
    CommasDropped .outside text (stripTrailingCommas text) ∧
      stringTokens (stripTrailingCommas text) = stringTokens text := by
  unfold stripTrailingCommas at h ⊢
  split
  next => exact ⟨.refl _ _,rfl⟩
  next hcomma =>
    rw [if_neg hcomma] at h
    have hsound := stripFrom_sound (s := .outside) h
    exact ⟨hsound.1,hsound.2.2 []⟩

lemma replaceWordLiteral_sound {text oldWord newWord : List Char} (hold : Foreign oldWord)
    (hnew : ∀ c ∈ newWord, c ≠ '"' ∧ c ≠ '\x27')
    (h : NoApostrophe .outside (replaceWordLiteral text oldWord newWord)) :
    WordReplaced oldWord newWord .outside none text (replaceWordLiteral text oldWord newWord) ∧
      NoApostrophe .outside text ∧
      stringTokens (replaceWordLiteral text oldWord newWord) = stringTokens text := by
  unfold replaceWordLiteral at h ⊢
  split
  next habsent =>
    rw [if_pos habsent] at h
    exact ⟨.refl _ _ _ _ _,h,rfl⟩
  next hthere =>
    rw [if_neg hthere] at h
    have hsound := replaceFrom_sound hold hnew text.length (s := .outside) le_rfl h
    exact ⟨hsound.1,hsound.2.1,hsound.2.2 []⟩

/-- A repair that ends in a document changed only commas and bare words. -/
lemma repairJSONLiterals_sound {text : List Char} (h : valid (repairJSONLiterals text) = true) :
    Repaired text (repairJSONLiterals text) ∧
    stringTokens (repairJSONLiterals text) = stringTokens text := by
  obtain ⟨j,hj⟩ := Option.isSome_iff_exists.mp h
  have hclean := noApostrophe_of_tidy (spelled_of_parse (unmarshal_some hj)).tidy
  unfold repairJSONLiterals at hclean ⊢
  simp only at hclean ⊢
  obtain ⟨hnone,hclean,htoks⟩ := replaceWordLiteral_sound foreign_none (by simp) hclean
  obtain ⟨hfalse,hclean,hfalseToks⟩ := replaceWordLiteral_sound foreign_false (by simp) hclean
  obtain ⟨htrue,hclean,htrueToks⟩ := replaceWordLiteral_sound foreign_true (by simp) hclean
  obtain ⟨hcommas,hcommaToks⟩ := stripTrailingCommas_sound hclean
  exact ⟨⟨_,_,_,hcommas,htrue,hfalse,hnone⟩,by rw [htoks,hfalseToks,htrueToks,hcommaToks]⟩

lemma replaceWordLiteral_tidy {text oldWord newWord : List Char} (hold : Foreign oldWord)
    (h : Spelled text) :
    replaceWordLiteral text oldWord newWord = text := by
  unfold replaceWordLiteral
  split
  next => rfl
  next => exact replaceFrom_tidy hold h.tidy

/-- A document is left as it is. -/
lemma repairJSONLiterals_valid {text : List Char} (h : valid text = true) :
    repairJSONLiterals text = text := by
  obtain ⟨j,hj⟩ := Option.isSome_iff_exists.mp h
  have hspelled := spelled_of_parse (unmarshal_some hj)
  have hstrip : stripTrailingCommas text = text := by
    unfold stripTrailingCommas
    split
    next => rfl
    next => exact stripFrom_tidy hspelled.tidy
  unfold repairJSONLiterals
  simp only [hstrip]
  rw [replaceWordLiteral_tidy foreign_true hspelled,replaceWordLiteral_tidy foreign_false hspelled,
    replaceWordLiteral_tidy foreign_none hspelled]

lemma Repaired.refl (text : List Char) : Repaired text text :=
  ⟨text,text,text,.refl _ _,.refl _ _ _ _ _,.refl _ _ _ _ _,.refl _ _ _ _ _⟩

/-! What arguments are taken from. -/

lemma infix_trimSpace (text : List Char) : Runes.trimSpace text <:+: text := by
  obtain ⟨a,b,h,-⟩ := Runes.trimSpace_split text
  exact ⟨a,b,h.symm⟩

lemma intercalate_tail_suffix (sep : List Char) (lines : List (List Char)) :
    sep.intercalate (lines.drop 1) <:+ sep.intercalate lines := by
  cases lines with
  | nil => exact List.suffix_refl _
  | cons l lines =>
    by_cases hnil : lines = []
    · subst hnil
      exact List.nil_suffix
    · rw [List.intercalate_cons_of_ne_nil hnil]
      exact List.suffix_append _ _

lemma prefix_intercalate_dropLast (sep : List Char) (lines : List (List Char)) :
    sep.intercalate lines.dropLast <+: sep.intercalate lines := by
  induction lines with
  | nil => exact List.prefix_refl _
  | cons l lines ih =>
    cases lines with
    | nil => exact List.nil_prefix
    | cons m lines =>
      rw [List.dropLast_cons_cons,List.intercalate_cons_cons]
      by_cases hnil : (m :: lines).dropLast = []
      · rw [hnil,List.intercalate_singleton,List.append_assoc]
        exact List.prefix_append _ _
      · rw [List.intercalate_cons_of_ne_nil hnil]
        exact (List.prefix_append_right_inj _).mpr ih

lemma infix_insideFence {text inner : List Char} (h : insideFence text = some inner) :
    inner <:+: text := by
  unfold insideFence at h
  simp only at h
  split at h
  next =>
    split at h
    next =>
      cases h
      refine (infix_trimSpace _).trans ?_
      have hwhole : ['\n'].intercalate (text.splitOn '\n') = text := List.intercalate_splitOn _
      have htail := intercalate_tail_suffix ['\n'] (text.splitOn '\n')
      rw [hwhole] at htail
      split
      next => exact (prefix_intercalate_dropLast _ _).isInfix.trans htail.isInfix
      next => exact htail.isInfix
    next => cases h
  next => cases h

lemma infix_bracketed {first last : Char} {text inner : List Char}
    (h : bracketed first last text = some inner) :
    inner <:+: text := by
  unfold bracketed at h
  split at h
  next =>
    simp only at h
    split at h
    next =>
      cases h
      exact (List.drop_suffix _ _).isInfix.trans (List.take_prefix _ _).isInfix
    next => cases h
  next => cases h

lemma repaired?_sound {candidate args : List Char} (h : repaired? candidate = some args) :
    valid args = true ∧ Repaired candidate args ∧ stringTokens args = stringTokens candidate := by
  unfold repaired? at h
  split at h
  next hvalid =>
    cases h
    exact ⟨hvalid,.refl _,rfl⟩
  next =>
    split at h
    next hvalid =>
      cases h
      exact ⟨hvalid,repairJSONLiterals_sound hvalid⟩
    next => cases h

/-- Arguments that were rewritten are a document, with the strings of the part of the text they were
taken from and no other difference to it than dropped commas and replaced words; and a document is
never repaired. -/
theorem repair_spares_strings :
    (∀ raw args, sanitizeJSONArgumentsReport raw = (args,true) →
      valid args = true ∧ ∃ source, source <:+: raw ∧ stringTokens args = stringTokens source ∧
      Repaired source args) ∧
    (∀ text, valid text = true → repairJSONLiterals text = text) := by
  refine ⟨?_,fun text => repairJSONLiterals_valid⟩
  intro raw args h
  unfold sanitizeJSONArgumentsReport at h
  simp only at h
  split at h
  next => cases h
  next =>
    split at h
    next => cases h
    next =>
      have hinner : (insideFence (Runes.trimSpace raw)).getD (Runes.trimSpace raw) <:+: raw := by
        cases hfence : insideFence (Runes.trimSpace raw) with
        | none => exact infix_trimSpace raw
        | some inner => exact (infix_insideFence hfence).trans (infix_trimSpace raw)
      generalize (insideFence (Runes.trimSpace raw)).getD (Runes.trimSpace raw) =
        trimmed at h hinner
      have htaken : ∀ {first last : Char} {args : List Char},
        (bracketed first last trimmed).bind repaired? = some args →
          valid args = true ∧ ∃ source, source <:+: raw ∧ stringTokens args = stringTokens source ∧
          Repaired source args := by
        intro first last args hargs
        obtain ⟨candidate,hcandidate,hrepaired⟩ := Option.bind_eq_some_iff.mp hargs
        obtain ⟨hvalid,hrep,htoks⟩ := repaired?_sound hrepaired
        exact ⟨hvalid,candidate,(infix_bracketed hcandidate).trans hinner,htoks,hrep⟩
      split at h
      next hvalid =>
        cases h
        exact ⟨hvalid,_,hinner,rfl,.refl _⟩
      next =>
        split at h
        next hobj =>
          cases h
          exact htaken hobj
        next =>
          split at h
          next harr =>
            cases h
            exact htaken harr
          next =>
            split at h
            next hvalid =>
              cases h
              obtain ⟨hrep,htoks⟩ := repairJSONLiterals_sound hvalid
              exact ⟨hvalid,trimmed,hinner,htoks,hrep⟩
            next => cases h

/-- An object with a Python literal, a trailing comma, and a key that holds a comma and a
bracket. -/
def pythonArgs : List Char := ['{','"','a',',',']','"',':','T','r','u','e',',','}']

theorem repair_spares_strings_python :
    ∃ source, source <:+: pythonArgs ∧ stringTokens source = [['"','a',',',']','"']] ∧
      Repaired source ['{','"','a',',',']','"',':','t','r','u','e','}'] := by
  obtain ⟨-,source,hsource,htoks,hrep⟩ := repair_spares_strings.1 pythonArgs
    ['{','"','a',',',']','"',':','t','r','u','e','}'] (by decide)
  exact ⟨source,hsource,htoks.symm,hrep⟩

end Manvi.OpenAICompat
