import Manvi.Encoding.JsonText

/-! Reading back what was written: the encoding of a document spells exactly that document. -/
namespace Manvi.Encoding
namespace Json

@[simp] theorem charDigit_digitChar (d : Fin 10) : charDigit (digitChar d) = some d := by
  revert d; decide

/-- Text that cannot continue a run of digits. -/
def EndsDigits (rest : List Char) : Prop := takeDigits rest = ([],rest)

lemma takeDigits_append (ds : List (Fin 10)) {rest : List Char} (h : EndsDigits rest) :
    takeDigits (ds.map digitChar ++ rest) = (ds,rest) := by
  induction ds with
  | nil => exact h
  | cons d ds ih => simp [takeDigits,ih]

lemma digitsAux_value (fuel n : ℕ) (h : n < fuel) (acc : List (Fin 10)) :
    (digitsAux fuel n acc).foldl (fun a d => 10*a+d.val) 0 =
      acc.foldl (fun a d => 10*a+d.val) n := by
  induction fuel generalizing n acc with
  | zero => omega
  | succ fuel ih =>
    simp only [digitsAux]
    split
    · rename_i hn
      simp [Nat.mod_eq_of_lt hn]
    · rw [ih (n/10) (by omega)]
      simp only [List.foldl_cons,Fin.val_ofNat]
      congr 1
      omega

lemma digitsValue_natDigits (n : ℕ) : digitsValue (natDigits n) = n := by
  simpa [natDigits,digitsValue] using digitsAux_value (n+1) n (by omega) []

lemma digitsAux_lead (fuel n : ℕ) (h : n < fuel) (hn : 0 < n) (acc : List (Fin 10)) :
    ∃ d ds, digitsAux fuel n acc = d :: ds ∧ d ≠ 0 := by
  induction fuel generalizing n acc with
  | zero => omega
  | succ fuel ih =>
    simp only [digitsAux]
    split
    · rename_i hlt
      refine ⟨_,_,rfl,?_⟩
      intro h0
      have := congrArg Fin.val h0
      simp [Nat.mod_eq_of_lt hlt] at this
      omega
    · exact ih (n/10) (by omega) (by omega) _

/-- Digits have no leading zero, unless they are the digit zero. -/
lemma natDigits_lead (n : ℕ) : ∃ d ds, natDigits n = d :: ds ∧ ¬ (d = 0 ∧ ds ≠ []) := by
  rcases Nat.eq_zero_or_pos n with rfl | hn
  · exact ⟨0,[],by decide,by simp⟩
  · obtain ⟨d,ds,he,hd⟩ := digitsAux_lead (n+1) n (by omega) hn []
    exact ⟨d,ds,he,fun h => hd h.1⟩

lemma parseWhole_append (n : ℕ) {rest : List Char} (h : EndsDigits rest) :
    parseWhole ((natDigits n).map digitChar ++ rest) = some (n,rest) := by
  obtain ⟨d,ds,he,hd⟩ := natDigits_lead n
  have hv := digitsValue_natDigits n
  rw [he] at hv ⊢
  simp only [parseWhole,takeDigits_append (d :: ds) h]
  rw [if_neg hd,hv]

/-- What may stand after a value inside a document. -/
def Delimited (rest : List Char) : Prop :=
  ∀ c ∈ rest.head?, c = ',' ∨ c = ']' ∨ c = '}'

lemma Delimited.cases {rest : List Char} (h : Delimited rest) :
    rest = [] ∨ ∃ cs, rest = ',' :: cs ∨ rest = ']' :: cs ∨ rest = '}' :: cs := by
  cases rest with
  | nil => exact .inl rfl
  | cons c cs =>
    right
    refine ⟨cs,?_⟩
    rcases h c rfl with rfl | rfl | rfl <;> simp

lemma Delimited.endsDigits {rest : List Char} (h : Delimited rest) : EndsDigits rest := by
  rcases h.cases with rfl | ⟨cs,rfl | rfl | rfl⟩ <;> rfl

lemma parseSign_append (s : Option Bool) (d : Fin 10) (ds : List (Fin 10)) (rest : List Char) :
    parseSign (encodeSign s ++ ((d :: ds).map digitChar ++ rest)) =
      (s,(d :: ds).map digitChar ++ rest) := by
  rcases s with _ | _ | _
  · simp only [encodeSign,List.nil_append,List.map_cons,List.cons_append]
    fin_cases d <;> rfl
  · rfl
  · rfl

lemma parseExponent_append (e : Option Exponent) {rest : List Char} (h : Delimited rest) :
    parseExponent (encodeExponent e ++ rest) = some (e,rest) := by
  cases e with
  | none =>
    rcases h.cases with rfl | ⟨cs,rfl | rfl | rfl⟩ <;> rfl
  | some e =>
    obtain ⟨u,s,d,ds⟩ := e
    have hs := parseSign_append s d ds rest
    have hd := takeDigits_append (d :: ds) h.endsDigits
    simp only [encodeExponent,List.cons_append,List.append_assoc,parseExponent]
    rw [hs]
    simp only [hd]
    cases u <;> rfl

lemma exponent_endsDigits (e : Option Exponent) {rest : List Char} (h : Delimited rest) :
    EndsDigits (encodeExponent e ++ rest) := by
  cases e with
  | none => exact h.endsDigits
  | some e =>
    obtain ⟨u,s,d,ds⟩ := e
    cases u <;> rfl

lemma parseFraction_append (f : List (Fin 10)) (e : Option Exponent) {rest : List Char}
    (h : Delimited rest) :
    parseFraction (encodeFraction f ++ (encodeExponent e ++ rest)) =
      some (f,encodeExponent e ++ rest) := by
  cases f with
  | nil =>
    rcases e with _ | ⟨u,s,d,ds⟩
    · rcases h.cases with rfl | ⟨cs,rfl | rfl | rfl⟩ <;> rfl
    · cases u <;> rfl
  | cons d ds =>
    simp only [encodeFraction,List.cons_append,parseFraction]
    rw [takeDigits_append (d :: ds) (exponent_endsDigits e h)]

lemma fraction_endsDigits (f : List (Fin 10)) {rest : List Char} (h : EndsDigits rest) :
    EndsDigits (encodeFraction f ++ rest) := by
  cases f with
  | nil => exact h
  | cons d ds => rfl

lemma parseMinus_append (neg : Bool) (n : ℕ) (rest : List Char) :
    parseMinus (encodeMinus neg ++ ((natDigits n).map digitChar ++ rest)) =
      (neg,(natDigits n).map digitChar ++ rest) := by
  cases neg with
  | true => rfl
  | false =>
    obtain ⟨d,ds,hd,_⟩ := natDigits_lead n
    simp only [encodeMinus,Bool.false_eq_true,if_false,List.nil_append,hd,List.map_cons,
      List.cons_append]
    fin_cases d <;> rfl

lemma parseNumber_encode (n : Number) {rest : List Char} (h : Delimited rest) :
    parseNumber (encodeNumber n ++ rest) = some (n,rest) := by
  have he := parseExponent_append n.exponent h
  have hf := parseFraction_append n.fraction n.exponent h
  have hw := parseWhole_append n.whole (fraction_endsDigits n.fraction
    (exponent_endsDigits n.exponent h))
  have hm := parseMinus_append n.negative n.whole
    (encodeFraction n.fraction ++ (encodeExponent n.exponent ++ rest))
  simp only [parseNumber,encodeNumber,List.append_assoc,hm,hw,hf,he,Option.bind_eq_bind,
    Option.bind_some]
  rfl

lemma hexValue_hexDigit {n : ℕ} (h : n < 16) : hexValue (hexDigit n) = some n := by
  interval_cases n <;> decide

lemma parseUnits_unicodeEscape {n : ℕ} (h : n < 65536) (rest : List Char) :
    parseUnits (unicodeEscape n ++ rest) = (parseUnits rest).map (fun r => (n :: r.1,r.2)) := by
  have hx : hex4 (hexDigit (n/4096%16)) (hexDigit (n/256%16)) (hexDigit (n/16%16))
      (hexDigit (n%16)) = some n := by
    simp only [hex4,hexValue_hexDigit (Nat.mod_lt _ (by decide : 0 < 16)),Option.bind_eq_bind,
      Option.bind_some,Option.pure_def,Option.some.injEq]
    omega
  simp only [unicodeEscape,List.cons_append,List.nil_append,parseUnits,hx,
    Option.bind_eq_bind,Option.bind_some]
  cases parseUnits rest <;> rfl

lemma parseUnits_plain {c : Char} (hq : c ≠ '"') (hb : c ≠ '\\') (hc : ¬ c.toNat < 32)
    (rest : List Char) :
    parseUnits (c :: rest) = (parseUnits rest).map (fun r => (c.toNat :: r.1,r.2)) := by
  rw [parseUnits.eq_def]
  split
  · contradiction
  · simp_all
  · simp_all
  · simp_all
  · rename_i c' rest' _ _ _ he
    obtain ⟨rfl,rfl⟩ := List.cons.inj he
    rw [if_neg hc]
    cases parseUnits rest <;> rfl

lemma escaped_lt {c : Char} (h : escaped c = true) : c.toNat < 65536 := by
  simp only [escaped,Bool.or_eq_true,decide_eq_true_eq,beq_iff_eq] at h
  rcases h with ((((((h | rfl) | rfl) | rfl) | rfl) | rfl) | h) | h <;> first | omega | decide

lemma parseUnits_encodeChar (c : Char) (rest : List Char) :
    parseUnits (encodeChar c ++ rest) = (parseUnits rest).map (fun r => (c.toNat :: r.1,r.2)) := by
  have hu : ∀ e n, unescapeChar e = some n → e ≠ 'u' →
      parseUnits ('\\' :: e :: rest) = (parseUnits rest).map (fun r => (n :: r.1,r.2)) := by
    intro e n he hne
    rw [parseUnits.eq_def]
    split
    · contradiction
    · simp_all
    · simp_all
    · rename_i e' rest' _ heq
      obtain ⟨rfl,rfl⟩ := List.cons.inj (List.cons.inj heq).2
      simp only [he,Option.bind_eq_bind,Option.bind_some]
      cases parseUnits rest <;> rfl
    · rename_i _ hno heq
      obtain ⟨rfl,rfl⟩ := List.cons.inj heq
      exact absurd rfl (hno e rest rfl)
  unfold encodeChar
  split_ifs with h1 h2 h3 h4 h5 h6 h7 h8
  · subst h1; exact hu _ _ rfl (by decide)
  · subst h2; exact hu _ _ rfl (by decide)
  · subst h3; exact hu _ _ rfl (by decide)
  · subst h4; exact hu _ _ rfl (by decide)
  · subst h5; exact hu _ _ rfl (by decide)
  · rw [h6]; exact hu 'b' 8 rfl (by decide)
  · rw [h7]; exact hu 'f' 12 rfl (by decide)
  · exact parseUnits_unicodeEscape (escaped_lt h8) rest
  · refine parseUnits_plain h1 h2 ?_ rest
    intro hc
    exact h8 (by simp [escaped,hc])

lemma parseUnits_encode (cs rest : List Char) :
    parseUnits (cs.flatMap encodeChar ++ '"' :: rest) = some (cs.map Char.toNat,rest) := by
  induction cs with
  | nil => rfl
  | cons c cs ih =>
    rw [List.flatMap_cons,List.append_assoc,parseUnits_encodeChar,ih]
    rfl

lemma unitChar_toNat (c : Char) : unitChar c.toNat = c := by
  have hv : ¬ (0xD800 ≤ c.toNat ∧ c.toNat < 0xE000) := by
    rcases c.valid with h | h
    · simp only [Char.toNat]; omega
    · simp only [Char.toNat]; omega
  rw [unitChar,if_neg hv,Char.ofNat_toNat]

lemma joinUnits_map (cs : List Char) : joinUnits (cs.map Char.toNat) = cs := by
  induction cs with
  | nil => rfl
  | cons c cs ih =>
    have hc : ¬ (0xD800 ≤ c.toNat ∧ c.toNat < 0xDC00) := by
      rcases c.valid with h | h
      · simp only [Char.toNat]; omega
      · simp only [Char.toNat]; omega
    cases cs with
    | nil => simp [joinUnits,unitChar_toNat]
    | cons d cs =>
      simp only [List.map_cons] at ih ⊢
      rw [joinUnits,if_neg (fun h => hc ⟨h.1,h.2.1⟩),ih,unitChar_toNat]

lemma parseString_encode (s : String) (rest : List Char) :
    parseString (encodeString s ++ rest) = some (s,rest) := by
  simp only [encodeString,List.cons_append,List.append_assoc,parseString,List.nil_append,
    parseUnits_encode,Option.bind_eq_bind,Option.bind_some,joinUnits_map,String.ofList_toList]
  rfl

lemma skipSpace_cons {c : Char} (h : isSpace c = false) (rest : List Char) :
    skipSpace (c :: rest) = c :: rest := by simp [skipSpace,h]

/-- A number starts with a minus sign or a digit, so no other kind of value is tried. -/
lemma parseValue_number (n : Number) {rest : List Char} (h : Delimited rest) (fuel : ℕ) :
    parseValue (fuel+1) (encodeNumber n ++ rest) = some (.num n,rest) := by
  have hn := parseNumber_encode n h
  have hhead : ∃ c cs, encodeNumber n ++ rest = c :: cs ∧ (c = '-' ∨ ∃ d, c = digitChar d) := by
    obtain ⟨d,ds,hd,_⟩ := natDigits_lead n.whole
    cases hneg : n.negative with
    | true => exact ⟨_,_,by simp only [encodeNumber,encodeMinus,hneg,if_true]; rfl,.inl rfl⟩
    | false =>
      exact ⟨_,_,by simp only [encodeNumber,encodeMinus,hneg,Bool.false_eq_true,if_false,hd]; rfl,
        .inr ⟨d,rfl⟩⟩
  obtain ⟨c,cs,he,hc⟩ := hhead
  rw [he] at hn ⊢
  rcases hc with rfl | ⟨d,rfl⟩
  · simp only [parseValue]
    rw [skipSpace_cons (by decide)]
    exact congrArg (Option.bind · _) hn
  · fin_cases d <;>
    · simp only [parseValue]
      rw [skipSpace_cons (by decide)]
      exact congrArg (Option.bind · _) hn

lemma encode_head (j : Json) : ∃ c cs, encode j = c :: cs ∧ isSpace c = false ∧ c ≠ ']' := by
  cases j with
  | null => exact ⟨_,_,rfl,by decide,by decide⟩
  | bool b => cases b <;> exact ⟨_,_,rfl,by decide,by decide⟩
  | num n =>
    obtain ⟨d,ds,hd,_⟩ := natDigits_lead n.whole
    cases hneg : n.negative with
    | true =>
      exact ⟨_,_,by simp only [encode,encodeNumber,encodeMinus,hneg,if_true]; rfl,
        by decide,by decide⟩
    | false =>
      refine ⟨_,_,by simp only [encode,encodeNumber,encodeMinus,hneg,Bool.false_eq_true,
        if_false,hd]; rfl,?_,?_⟩
      · fin_cases d <;> rfl
      · fin_cases d <;> decide
  | str s => exact ⟨_,_,rfl,by decide,by decide⟩
  | arr xs => exact ⟨_,_,rfl,by decide,by decide⟩
  | obj ms => exact ⟨_,_,rfl,by decide,by decide⟩

lemma encode_length_pos (j : Json) : 0 < (encode j).length := by
  obtain ⟨c,cs,he,_⟩ := encode_head j
  simp [he]

lemma parseValue_array (fuel : ℕ) {c : Char} (hs : isSpace c = false) (hc : c ≠ ']')
    (cs : List Char) : parseValue (fuel+1) ('[' :: c :: cs) =
      (parseItems fuel (c :: cs)).map (fun r => (.arr r.1,r.2)) := by
  simp only [parseValue,skipSpace_cons (by decide : isSpace '[' = false),skipSpace_cons hs]
  split
  · simp_all
  · cases parseItems fuel (c :: cs) <;> rfl

lemma parseValue_object (fuel : ℕ) (cs : List Char) : parseValue (fuel+1) ('{' :: '"' :: cs) =
      (parseMembers fuel ('"' :: cs)).map (fun r => (.obj r.1,r.2)) := by
  simp only [parseValue]
  rw [skipSpace_cons (by decide)]
  simp only [skipSpace_cons (by decide : isSpace '"' = false)]
  split
  · simp_all
  · cases parseMembers fuel ('"' :: cs) <;> rfl

mutual
/-- Decoding the encoding of a document gives it back, with the text after it untouched. -/
theorem parseValue_encode (j : Json) (fuel : ℕ) (hf : (encode j).length ≤ fuel)
    (rest : List Char) (hr : Delimited rest) :
    parseValue (fuel+1) (encode j ++ rest) = some (j,rest) := by
  match j with
  | .null => rfl
  | .bool true => rfl
  | .bool false => rfl
  | .num n => exact parseValue_number n hr fuel
  | .str s =>
    have hs := parseString_encode s rest
    simp only [encode,encodeString,List.cons_append] at hs ⊢
    simp only [parseValue,skipSpace_cons (by decide : isSpace '"' = false),hs]
    rfl
  | .arr [] => rfl
  | .arr (x :: xs) =>
    simp only [encode,List.length_cons] at hf
    obtain ⟨f,rfl⟩ : ∃ f, fuel = f+1 := ⟨fuel-1,by omega⟩
    have hi := parseItems_encode x xs f (by omega) rest
    obtain ⟨c,cs,he,hs,hc⟩ : ∃ c cs, encodeItems (x :: xs) = c :: cs ∧ isSpace c = false ∧
      c ≠ ']' := by
      obtain ⟨c,cs,he,h⟩ := encode_head x
      cases xs <;> exact ⟨c,_,by simp only [encodeItems,he]; rfl,h⟩
    rw [he] at hi
    simp only [encode,he,List.cons_append] at hi ⊢
    rw [parseValue_array _ hs hc,hi]
    rfl
  | .obj [] => rfl
  | .obj ((k,v) :: ms) =>
    simp only [encode,List.length_cons] at hf
    obtain ⟨f,rfl⟩ : ∃ f, fuel = f+1 := ⟨fuel-1,by omega⟩
    have hi := parseMembers_encode k v ms f (by omega) rest
    obtain ⟨cs,he⟩ : ∃ cs, encodeMembers ((k,v) :: ms) = '"' :: cs := by
      cases ms <;> exact ⟨_,by simp only [encodeMembers,encodeString]; rfl⟩
    rw [he] at hi
    simp only [encode,he,List.cons_append] at hi ⊢
    rw [parseValue_object,hi]
    rfl
termination_by fuel

theorem parseItems_encode (x : Json) (xs : List Json) (fuel : ℕ)
    (hf : (encodeItems (x :: xs)).length ≤ fuel) (rest : List Char) :
    parseItems (fuel+1) (encodeItems (x :: xs) ++ rest) = some (x :: xs,rest) := by
  have hx := encode_length_pos x
  match xs with
  | [] =>
    simp only [encodeItems,List.length_append,List.length_cons,List.length_nil] at hf
    obtain ⟨f,rfl⟩ : ∃ f, fuel = f+1 := ⟨fuel-1,by omega⟩
    have hv := parseValue_encode x f (by omega) (']' :: rest) (by simp [Delimited])
    simp only [encodeItems,List.append_assoc,List.cons_append,List.nil_append,parseItems,hv,
      Option.bind_eq_bind,Option.bind_some,skipSpace_cons (by decide : isSpace ']' = false)]
    rfl
  | y :: ys =>
    simp only [encodeItems,List.length_append,List.length_cons] at hf
    obtain ⟨f,rfl⟩ : ∃ f, fuel = f+1 := ⟨fuel-1,by omega⟩
    have hv := parseValue_encode x f (by omega) (',' :: (encodeItems (y :: ys) ++ rest))
      (by simp [Delimited])
    have hi := parseItems_encode y ys f (by omega) rest
    simp only [encodeItems,List.append_assoc,List.cons_append,parseItems,hv,
      Option.bind_eq_bind,Option.bind_some,skipSpace_cons (by decide : isSpace ',' = false)]
    exact congrArg (Option.bind · _) hi
termination_by fuel

theorem parseMembers_encode (k : String) (v : Json) (ms : List (String × Json)) (fuel : ℕ)
    (hf : (encodeMembers ((k,v) :: ms)).length ≤ fuel) (rest : List Char) :
    parseMembers (fuel+1) (encodeMembers ((k,v) :: ms) ++ rest) = some ((k,v) :: ms,rest) := by
  have hx := encode_length_pos v
  have hk : ∀ cs, parseString (skipSpace (encodeString k ++ cs)) = some (k,cs) := by
    intro cs
    have hq : skipSpace (encodeString k ++ cs) = encodeString k ++ cs := by
      simp only [encodeString,List.cons_append]
      exact skipSpace_cons (by decide) _
    rw [hq,parseString_encode]
  match ms with
  | [] =>
    simp only [encodeMembers,List.length_append,List.length_cons,List.length_nil] at hf
    obtain ⟨f,rfl⟩ : ∃ f, fuel = f+1 := ⟨fuel-1,by omega⟩
    have hv := parseValue_encode v f (by omega) ('}' :: rest) (by simp [Delimited])
    simp only [encodeMembers,List.append_assoc,List.cons_append,List.nil_append,parseMembers,
      hk,hv,Option.bind_eq_bind,Option.bind_some,
      skipSpace_cons (by decide : isSpace ':' = false),
      skipSpace_cons (by decide : isSpace '}' = false)]
    rfl
  | m :: ms =>
    obtain ⟨k',v'⟩ := m
    simp only [encodeMembers,List.length_append,List.length_cons] at hf
    obtain ⟨f,rfl⟩ : ∃ f, fuel = f+1 := ⟨fuel-1,by omega⟩
    have hv := parseValue_encode v f (by omega) (',' :: (encodeMembers ((k',v') :: ms) ++ rest))
      (by simp [Delimited])
    have hi := parseMembers_encode k' v' ms f (by omega) rest
    simp only [encodeMembers,List.append_assoc,List.cons_append,parseMembers,hk,hv,
      Option.bind_eq_bind,Option.bind_some,skipSpace_cons (by decide : isSpace ':' = false),
      skipSpace_cons (by decide : isSpace ',' = false)]
    exact congrArg (Option.bind · _) hi
termination_by fuel
end

/-- The text json.Marshal writes for a document spells that document. -/
@[simp] theorem parse_encode (j : Json) : parse (encode j) = some j := by
  have h := parseValue_encode j (encode j).length le_rfl [] (by simp [Delimited])
  rw [List.append_nil] at h
  simp only [parse,h]
  rfl

end Json
end Manvi.Encoding
