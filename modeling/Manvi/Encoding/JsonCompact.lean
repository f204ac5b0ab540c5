import Manvi.Encoding.JsonSpelling

/-! Compacting what the encoder wrote changes nothing. -/
namespace Manvi.Encoding
namespace Json

/-- A character that compacting copies between tokens without entering a string. -/
def plain (c : Char) : Bool := !isSpace c && c != '"'

lemma compact_cons {c : Char} (h : plain c = true) (rest : List Char) :
    compact false false (c :: rest) = c :: compact false false rest := by
  obtain ⟨hs,hq⟩ : isSpace c = false ∧ c ≠ '"' := by simpa [plain] using h
  rw [compact,if_neg (by simp),hs,if_neg (by simp),beq_false_of_ne hq]

lemma compact_plain {cs : List Char} (h : cs.all plain = true) (rest : List Char) :
    compact false false (cs ++ rest) = cs ++ compact false false rest := by
  induction cs with
  | nil => rfl
  | cons c cs ih =>
    rw [List.all_cons,Bool.and_eq_true] at h
    rw [List.cons_append,compact_cons h.1,ih h.2,List.cons_append]

lemma encodeNumber_plain (n : Number) : (encodeNumber n).all plain = true :=
  encodeNumber_all (by decide) (by decide) n

/-- A character that compacting copies inside a string without leaving it. -/
def inert (c : Char) : Bool := !escaped c

lemma compact_inert {c : Char} (h : inert c = true) (rest : List Char) :
    compact true false (c :: rest) = c :: compact true false rest := by
  have he : escaped c = false := by simpa [inert] using h
  simp only [escaped,Bool.or_eq_false_iff,beq_eq_false_iff_ne] at he
  obtain ⟨⟨⟨⟨⟨⟨⟨_,hq⟩,hb⟩,hlt⟩,hgt⟩,hamp⟩,h8⟩,h9⟩ := he
  have hstay : (c != '"') = true := bne_iff_ne.mpr hq
  rw [compact,if_pos rfl,if_neg (by tauto),beq_false_of_ne hb,hstay]
  rfl

lemma compact_inert_append {cs : List Char} (h : cs.all inert = true) (rest : List Char) :
    compact true false (cs ++ rest) = cs ++ compact true false rest := by
  induction cs with
  | nil => rfl
  | cons c cs ih =>
    rw [List.all_cons,Bool.and_eq_true] at h
    rw [List.cons_append,compact_inert h.1,ih h.2,List.cons_append]

/-- A backslash protects the character after it. -/
lemma compact_escape {c : Char} (h : c ≠ '<' ∧ c ≠ '>' ∧ c ≠ '&' ∧ c.toNat ≠ 0x2028 ∧
    c.toNat ≠ 0x2029)
    (rest : List Char) :
    compact true false ('\\' :: c :: rest) = '\\' :: c :: compact true false rest := by
  have hc : ¬ (c = '<' ∨ c = '>' ∨ c = '&' ∨ c.toNat = 0x2028 ∨ c.toNat = 0x2029) := by tauto
  have hslash : ¬ ('\\' = '<' ∨ '\\' = '>' ∨ '\\' = '&' ∨ '\\'.toNat = 0x2028 ∨
    '\\'.toNat = 0x2029) := by
    decide
  rw [compact,if_pos rfl,if_neg hslash]
  change '\\' :: compact true true (c :: rest) = _
  rw [compact,if_pos rfl,if_neg hc]
  rfl

lemma hexDigit_inert {n : ℕ} (h : n < 16) : inert (hexDigit n) = true := by
  interval_cases n <;> decide

lemma compact_unicodeEscape (n : ℕ) (rest : List Char) :
    compact true false (unicodeEscape n ++ rest) = unicodeEscape n ++ compact true false rest := by
  have hdigits : [hexDigit (n/4096%16),hexDigit (n/256%16),hexDigit (n/16%16),
    hexDigit (n%16)].all inert = true := by
    simp only [List.all_cons,List.all_nil,Bool.and_true,Bool.and_eq_true]
    refine ⟨?_,?_,?_,?_⟩
    all_goals exact hexDigit_inert (Nat.mod_lt _ (by norm_num))
  change compact true false ('\\' :: 'u' :: (_ ++ rest)) = _
  rw [compact_escape (by decide),compact_inert_append hdigits]
  rfl

lemma compact_encodeChar (c : Char) (rest : List Char) :
    compact true false (encodeChar c ++ rest) = encodeChar c ++ compact true false rest := by
  unfold encodeChar
  split_ifs with h1 h2 h3 h4 h5 h6 h7 h8
  all_goals try exact compact_escape (by decide) rest
  · exact compact_unicodeEscape c.toNat rest
  · apply compact_inert
    simpa [inert] using h8

lemma compact_encodeString (s : String) (rest : List Char) :
    compact false false (encodeString s ++ rest) = encodeString s ++ compact false false rest := by
  have hbody : ∀ cs : List Char, compact true false (cs.flatMap encodeChar ++ '"' :: rest) =
      cs.flatMap encodeChar ++ '"' :: compact false false rest := by
    intro cs
    induction cs with
    | nil =>
      change compact true false ('"' :: rest) = '"' :: compact false false rest
      rw [compact,if_pos rfl,if_neg (by decide)]
      rfl
    | cons c cs ih =>
      rw [List.flatMap_cons,List.append_assoc,compact_encodeChar,ih,List.append_assoc]
  have hopen : ∀ body : List Char,
    compact false false ('"' :: body) = '"' :: compact true false body := by
    intro body
    rw [compact,if_neg (by simp),if_neg (by decide)]
    rfl
  simp only [encodeString,List.cons_append,List.append_assoc,List.nil_append]
  rw [hopen,hbody]

mutual
/-- Compacting copies an encoded document, whatever follows it. -/
theorem compact_encode_append (j : Json) (rest : List Char) :
    compact false false (encode j ++ rest) = encode j ++ compact false false rest := by
  match j with
  | .null => exact compact_plain (by decide) rest
  | .bool true => exact compact_plain (by decide) rest
  | .bool false => exact compact_plain (by decide) rest
  | .num n => exact compact_plain (encodeNumber_plain n) rest
  | .str s => exact compact_encodeString s rest
  | .arr items =>
    rw [encode,List.cons_append,compact_cons (by decide),compact_encodeItems items rest,
      List.cons_append]
  | .obj members =>
    rw [encode,List.cons_append,compact_cons (by decide),compact_encodeMembers members rest,
      List.cons_append]

theorem compact_encodeItems (items : List Json) (rest : List Char) :
    compact false false (encodeItems items ++ rest) = encodeItems items ++
    compact false false rest := by
  match items with
  | [] => exact compact_cons (by decide) rest
  | [x] =>
    simp only [encodeItems,List.append_assoc,List.cons_append,List.nil_append]
    rw [compact_encode_append x,compact_cons (by decide)]
  | x :: y :: more =>
    simp only [encodeItems,List.append_assoc,List.cons_append]
    rw [compact_encode_append x,compact_cons (by decide),compact_encodeItems (y :: more) rest]

theorem compact_encodeMembers (members : List (String × Json)) (rest : List Char) :
    compact false false (encodeMembers members ++ rest) =
      encodeMembers members ++ compact false false rest := by
  match members with
  | [] => exact compact_cons (by decide) rest
  | [(k,v)] =>
    simp only [encodeMembers,List.append_assoc,List.cons_append,List.nil_append]
    rw [compact_encodeString,compact_cons (by decide),compact_encode_append v,
      compact_cons (by decide)]
  | (k,v) :: m :: more =>
    simp only [encodeMembers,List.append_assoc,List.cons_append]
    rw [compact_encodeString,compact_cons (by decide),compact_encode_append v,
      compact_cons (by decide),
      compact_encodeMembers (m :: more) rest]
end

/-- Encoding a raw value that the encoder wrote gives it back. -/
theorem marshalRaw_encode (j : Json) : marshalRaw (encode j) = .ok (encode j) := by
  have h := compact_encode_append j []
  rw [List.append_nil] at h
  simp only [marshalRaw,parse_encode,h]
  rw [compact,List.append_nil]

end Json
end Manvi.Encoding
