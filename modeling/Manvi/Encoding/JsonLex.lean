import Manvi.Encoding.Space
import Manvi.Encoding.JsonSpelling

/-! The characters of a JSON text outside its strings. -/
namespace Manvi.Encoding.Json

/-- Where a scan for double quotes stands: between strings, or inside one and perhaps after a
backslash. -/
inductive Lex
  | outside
  | inside (escaped : Bool)
  deriving DecidableEq

namespace Lex

def step : Lex → Char → Lex
  | outside,c => if c = '"' then inside false else outside
  | inside true,_ => inside false
  | inside false,c => if c = '\\' then inside true else if c = '"' then outside else inside false

def after (s : Lex) (cs : List Char) : Lex := cs.foldl step s

@[simp] lemma after_nil (s : Lex) : s.after [] = s := rfl

@[simp] lemma after_cons (s : Lex) (c : Char) (cs : List Char) :
    s.after (c :: cs) = (s.step c).after cs := rfl

@[simp] lemma after_append (s : Lex) (p q : List Char) : s.after (p ++ q) = (s.after p).after q :=
    List.foldl_append

lemma inside_ne (escaped : Bool) : inside escaped ≠ outside := by
  intro h
  cases h

lemma step_outside {c : Char} (h : c ≠ '"') : outside.step c = outside := if_neg h

end Lex

/-- The strings of a text, each with its quotes. -/
def tokensFrom : Lex → List Char → List Char → List (List Char)
  | _,_,[] => []
  | .outside,_,c :: cs => tokensFrom (Lex.outside.step c) [c] cs
  | .inside e,token,c :: cs =>
    if (Lex.inside e).step c = .outside then (token ++ [c]) :: tokensFrom .outside [] cs
    else tokensFrom ((Lex.inside e).step c) (token ++ [c]) cs

def stringTokens (cs : List Char) : List (List Char) := tokensFrom .outside [] cs

/-- Every character outside strings has a property, which may look at what follows it. -/
def Between (P : Char → List Char → Prop) : Lex → List Char → Prop
  | _,[] => True
  | s,c :: cs => (s = .outside → P c cs) ∧ Between P (s.step c) cs

section between
variable {P Q : Char → List Char → Prop}

lemma Between.imp (himp : ∀ c rest, P c rest → Q c rest) {s : Lex} {cs : List Char}
    (h : Between P s cs) :
    Between Q s cs := by
  induction cs generalizing s with
  | nil => trivial
  | cons c cs ih => exact ⟨fun hs => himp c cs (h.1 hs),ih h.2⟩

lemma Between.append (hmore : ∀ c rest tail, P c rest → P c (rest ++ tail)) {s : Lex}
    {p q : List Char}
    (hp : Between P s p) (hq : Between P (s.after p) q) : Between P s (p ++ q) := by
  induction p generalizing s with
  | nil => exact hq
  | cons c p ih => exact ⟨fun hs => hmore c p q (hp.1 hs),ih hp.2 hq⟩

end between

/-- What may stand outside the strings of a document. -/
def structural (c : Char) : Bool :=
  (charDigit c).isSome || ['{','}','[',']',':',',','"','+','-','.','e','E','t','r','u','f','a','l',
    's','n',' ','\t','\n','\r'].contains c

/-- A text goes on with something that closes nothing. -/
def GoesOn (cs : List Char) : Prop := ∃ d t, skipSpace cs = d :: t ∧ d ≠ '}' ∧ d ≠ ']'

/-- A character as a document has it outside strings: after a comma, no array or object is
closed. -/
def Tidy (c : Char) (rest : List Char) : Prop := structural c = true ∧ (c = ',' → GoesOn rest)

/-- A whole part of a document: its strings are closed. -/
structure Spelled (p : List Char) : Prop where
  closed : Lex.outside.after p = .outside
  tidy : Between Tidy .outside p

lemma skipSpace_append {cs tail : List Char} {d : Char} {t : List Char}
    (h : skipSpace cs = d :: t) :
    skipSpace (cs ++ tail) = d :: (t ++ tail) := by
  induction cs with
  | nil => cases h
  | cons c cs ih =>
    unfold skipSpace at h ⊢
    cases hc : isSpace c with
    | true =>
      rw [hc] at h
      simp only [List.cons_append,hc,if_true] at h ⊢
      exact ih h
    | false =>
      rw [hc] at h
      simp only [List.cons_append,hc] at h ⊢
      cases h
      rfl

lemma GoesOn.append {cs : List Char} (h : GoesOn cs) (tail : List Char) : GoesOn (cs ++ tail) := by
  obtain ⟨d,t,hs,hd⟩ := h
  exact ⟨d,t ++ tail,skipSpace_append hs,hd⟩

lemma Tidy.append {c : Char} {rest : List Char} (h : Tidy c rest) (tail : List Char) :
    Tidy c (rest ++ tail) :=
  ⟨h.1,fun hc => (h.2 hc).append tail⟩

lemma Spelled.nil : Spelled [] := ⟨rfl,trivial⟩

lemma Spelled.append {p q : List Char} (hp : Spelled p) (hq : Spelled q) : Spelled (p ++ q) where
  closed := by rw [Lex.after_append,hp.closed,hq.closed]
  tidy := hp.tidy.append (fun _ _ tail h => h.append tail) (by rw [hp.closed];exact hq.tidy)

/-- A character that is no quote, put before a part of a document. -/
lemma Spelled.cons {c : Char} {p : List Char} (hp : Spelled p) (hquote : c ≠ '"')
    (htidy : Tidy c p) :
    Spelled (c :: p) where
  closed := by rw [Lex.after_cons,Lex.step_outside hquote,hp.closed]
  tidy := ⟨fun _ => htidy,by rw [Lex.step_outside hquote];exact hp.tidy⟩

/-- A run of characters that are neither quotes nor commas. -/
lemma spelled_run {p : List Char} (h : ∀ c ∈ p, structural c = true ∧ c ≠ '"' ∧ c ≠ ',') :
    Spelled p := by
  induction p with
  | nil => exact .nil
  | cons c p ih =>
    obtain ⟨hs,hquote,hcomma⟩ := h c List.mem_cons_self
    exact (ih fun d hd => h d (List.mem_cons_of_mem c hd)).cons hquote ⟨hs,
      fun hc => (hcomma hc).elim⟩

lemma spelled_space {w : List Char} (h : Blank w) : Spelled w := by
  apply spelled_run
  intro c hc
  have hs := h c hc
  simp only [isSpace,Bool.or_eq_true,beq_iff_eq] at hs
  obtain ((rfl | rfl) | rfl) | rfl := hs
  all_goals decide

/-- A part of a text that is inside a string up to its last character, the closing quote. -/
structure Quoted (p : List Char) : Prop where
  closed : (Lex.inside false).after p = .outside
  tidy : Between Tidy (.inside false) p

lemma Quoted.escape {p : List Char} (h : Quoted p) (c : Char) : Quoted ('\\' :: c :: p) :=
  ⟨h.closed,⟨fun hs => absurd hs (Lex.inside_ne _),⟨fun hs => absurd hs (Lex.inside_ne _),h.tidy⟩⟩⟩

lemma Quoted.cons {p : List Char} (h : Quoted p) {c : Char} (hq : c ≠ '"') (hb : c ≠ '\\') :
    Quoted (c :: p) := by
  have hstep : (Lex.inside false).step c = .inside false := by simp [Lex.step,hq,hb]
  exact ⟨by rw [Lex.after_cons,hstep,h.closed],
    ⟨fun hs => absurd hs (Lex.inside_ne _),by rw [hstep];exact h.tidy⟩⟩

/-- A hexadecimal digit is no quote and no backslash. -/
lemma hexValue_plain {c : Char} {n : ℕ} (h : hexValue c = some n) : c ≠ '"' ∧ c ≠ '\\' := by
  constructor
  · rintro rfl
    have hnone : hexValue '"' = none := by decide
    rw [hnone] at h
    cases h
  · rintro rfl
    have hnone : hexValue '\\' = none := by decide
    rw [hnone] at h
    cases h

lemma hex4_plain {a b c d : Char} {n : ℕ} (h : hex4 a b c d = some n) :
    ∀ x ∈ [a,b,c,d], x ≠ '"' ∧ x ≠ '\\' := by
  unfold hex4 at h
  obtain ⟨na,ha,h⟩ := Option.bind_eq_some_iff.mp h
  obtain ⟨nb,hb,h⟩ := Option.bind_eq_some_iff.mp h
  obtain ⟨nc,hc,h⟩ := Option.bind_eq_some_iff.mp h
  obtain ⟨nd,hd,-⟩ := Option.bind_eq_some_iff.mp h
  simp only [List.mem_cons,List.not_mem_nil,or_false]
  rintro x (rfl | rfl | rfl | rfl)
  · exact hexValue_plain ha
  · exact hexValue_plain hb
  · exact hexValue_plain hc
  · exact hexValue_plain hd

lemma Written.quoted {p : List Char} {us : List ℕ} (h : Written p us) : Quoted p := by
  induction h with
  | quote => exact ⟨rfl,⟨fun hs => absurd hs (Lex.inside_ne _),trivial⟩⟩
  | unicode hn _ ih =>
    have hplain := hex4_plain hn
    simp only [List.mem_cons,List.not_mem_nil,or_false,forall_eq_or_imp,forall_eq] at hplain
    obtain ⟨ha,hb,hc,hd⟩ := hplain
    exact ((((ih.cons hd.1 hd.2).cons hc.1 hc.2).cons hb.1 hb.2).cons ha.1 ha.2).escape 'u'
  | escape _ _ ih => exact ih.escape _
  | char hq hb _ _ ih => exact ih.cons hq hb

lemma Written.spelled {p : List Char} {us : List ℕ} (h : Written p us) : Spelled ('"' :: p) :=
  ⟨h.quoted.closed,⟨fun _ => ⟨by decide,fun hc => absurd hc (by decide)⟩,h.quoted.tidy⟩⟩

/-- What a number is written with. -/
def numeric (c : Char) : Bool := (charDigit c).isSome || ['+','-','.','e','E'].contains c

/-- What a number is written with is no white space, quotes nothing and closes nothing. -/
lemma numeric_plain {c : Char} (h : numeric c = true) :
    Runes.isSpace c = false ∧ isSpace c = false ∧
    structural c = true ∧ c ≠ '"' ∧ c ≠ ',' ∧ c ≠ '}' ∧ c ≠ ']' := by
  unfold numeric at h
  cases hd : charDigit c with
  | some d =>
    have hrange : 48 ≤ c.toNat ∧ c.toNat < 58 := by
      unfold charDigit at hd
      split at hd
      next hr => exact hr
      next => cases hd
    have hne : ∀ x : Char, x.toNat < 48 ∨ 58 ≤ x.toNat → c ≠ x := by
      rintro x hx rfl
      omega
    refine ⟨?_,?_,by simp [structural,hd],hne _ (by decide),hne _ (by decide),hne _ (by decide),
      hne _ (by decide)⟩
    · simp only [Runes.isSpace,Bool.or_eq_false_iff,Bool.and_eq_false_iff,decide_eq_false_iff_not]
      omega
    · simp only [isSpace,Bool.or_eq_false_iff,beq_eq_false_iff_ne]
      exact ⟨⟨⟨hne _ (by decide),hne _ (by decide)⟩,hne _ (by decide)⟩,hne _ (by decide)⟩
  | none =>
    have hmem : c ∈ ['+','-','.','e','E'] := by simpa [hd] using h
    have hall : ['+','-','.','e',
      'E'].all (fun x => !Runes.isSpace x && (!isSpace x && (structural x && (x != '"' &&
        (x != ',' && (x != '}' && x != ']')))))) = true := by decide
    simpa using List.all_eq_true.mp hall c hmem

lemma numeric_run {p : List Char} (h : p.all numeric = true) : Spelled p := by
  apply spelled_run
  intro c hc
  obtain ⟨-,-,hs,hquote,hcomma,-⟩ := numeric_plain (List.all_eq_true.mp h c hc)
  exact ⟨hs,hquote,hcomma⟩

lemma encodeNumber_numeric (n : Number) : (encodeNumber n).all numeric = true :=
  encodeNumber_all (by decide) (by decide) n

/-- A number is written from its own characters, and from one at least. -/
lemma numeric_head (n : Number) : ∃ c p, encodeNumber n = c :: p ∧ numeric c = true := by
  obtain ⟨c,p,hp,-⟩ := encode_head (.num n)
  rw [encode] at hp
  have hall := encodeNumber_numeric n
  rw [hp,List.all_cons,Bool.and_eq_true] at hall
  exact ⟨c,p,hp,hall.1⟩

/-- A part of a document that does not open by closing anything. -/
structure Part (p : List Char) : Prop where
  spelled : Spelled p
  goesOn : GoesOn p

lemma Part.of_head {c : Char} {p : List Char} (h : Spelled (c :: p)) (hspace : isSpace c = false)
    (hb : c ≠ '}')
    (hk : c ≠ ']') : Part (c :: p) := ⟨h,c,p,skipSpace_cons hspace p,hb,hk⟩

lemma Part.space {w p : List Char} (hw : Blank w) (h : Part p) : Part (w ++ p) := by
  refine ⟨(spelled_space hw).append h.spelled,?_⟩
  have hskip : skipSpace (w ++ p) = skipSpace p := by
    induction w with
    | nil => rfl
    | cons c w ih =>
      rw [List.cons_append,skipSpace,if_pos (hw c List.mem_cons_self)]
      exact ih fun d hd => hw d (List.mem_cons_of_mem c hd)
  obtain ⟨d,t,hs,hd⟩ := h.goesOn
  exact ⟨d,t,hskip.trans hs,hd⟩

lemma Part.append {p q : List Char} (hp : Part p) (hq : Spelled q) : Part (p ++ q) :=
  ⟨hp.spelled.append hq,hp.goesOn.append q⟩

lemma spelled_comma {p : List Char} (h : Part p) : Spelled (',' :: p) :=
  h.spelled.cons (by decide) ⟨by decide,fun _ => h.goesOn⟩

/-- The characters of the structure other than commas and quotes. -/
def marks : List Char := ['{','}','[',']',':','t','r','u','e','f','a','l','s','n']

lemma marks_plain {c : Char} (h : c ∈ marks) :
    c ≠ '"' ∧ c ≠ ',' ∧ structural c = true ∧ isSpace c = false := by
  have hall : marks.all (fun d => d != '"' && (d != ',' && (structural d && !isSpace d))) =
    true := by decide
  simpa using List.all_eq_true.mp hall c h

lemma Spelled.mark {c : Char} {p : List Char} (h : Spelled p) (hc : c ∈ marks) : Spelled (c :: p) :=
  h.cons (marks_plain hc).1 ⟨(marks_plain hc).2.2.1,fun heq => ((marks_plain hc).2.1 heq).elim⟩

lemma Part.mark {c : Char} {p : List Char} (h : Spelled p) (hc : c ∈ marks) (hb : c ≠ '}')
    (hk : c ≠ ']') :
    Part (c :: p) := .of_head (h.mark hc) (marks_plain hc).2.2.2 hb hk

lemma spelled_marks {p : List Char} (h : p.all (fun c => marks.contains c) = true) : Spelled p := by
  induction p with
  | nil => exact .nil
  | cons c p ih =>
    rw [List.all_cons,Bool.and_eq_true] at h
    exact (ih h.2).mark (by simpa using h.1)

lemma number_part (n : Number) : Part (encodeNumber n) := by
  obtain ⟨c,p,hp,hc⟩ := numeric_head n
  obtain ⟨-,hspace,-,-,-,hb,hk⟩ := numeric_plain hc
  have hspelled := numeric_run (encodeNumber_numeric n)
  rw [hp] at hspelled ⊢
  exact .of_head hspelled hspace hb hk

/-- What spells anything is a part of a document. -/
lemma Spells.part {p : List Char} {f : Form} (h : Spells p f) : Part p := by
  induction h with
  | blank hw _ ih => exact ih.space hw
  | null => exact .mark (spelled_marks (by decide)) (by decide) (by decide) (by decide)
  | bool b =>
    cases b with
    | true => exact .mark (spelled_marks (by decide)) (by decide) (by decide) (by decide)
    | false => exact .mark (spelled_marks (by decide)) (by decide) (by decide) (by decide)
  | num n => exact number_part n
  | str hk => exact .of_head hk.spelled (by decide) (by decide) (by decide)
  | emptyArr hw =>
    exact .mark ((spelled_space hw).append (spelled_marks (by decide))) (by decide) (by decide)
      (by decide)
  | emptyObj hw =>
    exact .mark ((spelled_space hw).append (spelled_marks (by decide))) (by decide) (by decide)
      (by decide)
  | arr _ ih => exact .mark ih.spelled (by decide) (by decide) (by decide)
  | obj _ ih => exact .mark ih.spelled (by decide) (by decide) (by decide)
  | lastItem _ hw ih => exact ih.append ((spelled_space hw).append (spelled_marks (by decide)))
  | item _ hw _ ih ihq => exact ih.append ((spelled_space hw).append (spelled_comma ihq))
  | lastMember hk hw _ hx ih =>
    have hvalue := ih.append ((spelled_space hx).append (spelled_marks (p := ['}']) (by decide)))
    exact (Part.of_head hk.spelled (by decide) (by decide) (by decide)).append
      ((spelled_space hw).append (hvalue.spelled.mark (by decide)))
  | member hk hw _ hx _ ih ihq =>
    have hvalue := ih.append ((spelled_space hx).append (spelled_comma ihq))
    exact (Part.of_head hk.spelled (by decide) (by decide) (by decide)).append
      ((spelled_space hw).append (hvalue.spelled.mark (by decide)))

/-- Outside its strings a document has only the characters of its structure, and no comma that
closes something. -/
theorem spelled_of_parse {cs : List Char} {j : Json} (h : parse cs = some j) : Spelled cs := by
  obtain ⟨p,w,rfl,hp,hw⟩ := spells_of_parse h
  exact hp.part.spelled.append (spelled_space hw)

end Manvi.Encoding.Json
