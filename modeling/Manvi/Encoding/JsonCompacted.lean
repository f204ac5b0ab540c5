import Manvi.Encoding.JsonCompact

/-! Compacting a text keeps the document that it spells. -/
namespace Manvi.Encoding.Json

/-- A text is compacted by itself, whatever follows it. -/
def Shrinks (p q : List Char) : Prop := ∀ tail, compact false false (p ++ tail) = q ++
    compact false false tail

lemma Shrinks.append {p q p' q' : List Char} (h : Shrinks p q) (h' : Shrinks p' q') :
    Shrinks (p ++ p') (q ++ q') := by
  intro tail
  rw [List.append_assoc,h,h',List.append_assoc]

lemma Shrinks.cons {c : Char} {p q : List Char} (hc : plain c = true) (h : Shrinks p q) :
    Shrinks (c :: p) (c :: q) := by
  intro tail
  rw [List.cons_append,compact_cons hc,h,List.cons_append]

lemma Shrinks.plain {p : List Char} (h : p.all plain = true) : Shrinks p p :=
    fun tail => compact_plain h tail

lemma Shrinks.space {w p q : List Char} (hw : Blank w) (h : Shrinks p q) : Shrinks (w ++ p) q := by
  induction w with
  | nil => exact h
  | cons c w ih =>
    intro tail
    rw [List.cons_append,List.cons_append,compact,if_neg (by decide),
      if_pos (hw c List.mem_cons_self)]
    exact ih (fun d hd => hw d (List.mem_cons_of_mem c hd)) tail

/-- White space before a mark of the structure. -/
lemma Shrinks.mark {w : List Char} (hw : Blank w) {c : Char} (hc : Json.plain c = true)
    {p q : List Char}
    (h : Shrinks p q) : Shrinks (w ++ c :: p) (c :: q) := (h.cons hc).space hw

section strings

/-- The body of a string with its closing quote is compacted, and read as before. -/
structure Body (p q : List Char) (us : List ℕ) : Prop where
  shrinks : ∀ tail, compact true false (p ++ tail) = q ++ compact false false tail
  reads : ∀ rest, parseUnits (q ++ rest) = some (us,rest)

lemma Body.quote : Body ['"'] ['"'] [] := ⟨fun _ => rfl,fun _ => rfl⟩

lemma hexValue_inert {c : Char} {n : ℕ} (h : hexValue c = some n) : inert c = true := by
  have hrange : 48 ≤ c.toNat ∧ c.toNat < 58 ∨ 97 ≤ c.toNat ∧ c.toNat < 103 ∨ 65 ≤ c.toNat ∧
    c.toNat < 71 := by
    unfold hexValue at h
    dsimp only at h
    split_ifs at h with h1 h2 h3
    · exact .inl h1
    · exact .inr (.inl h2)
    · exact .inr (.inr h3)
  have hne : ∀ x : Char, x.toNat < 48 ∨ x.toNat = 60 ∨ x.toNat = 62 ∨ x.toNat = 92 → c ≠ x := by
    rintro x hx rfl
    omega
  simp only [inert,escaped,Bool.not_eq_true',Bool.or_eq_false_iff,decide_eq_false_iff_not,
    beq_eq_false_iff_ne]
  refine ⟨⟨⟨⟨⟨⟨⟨by omega,hne _ (by decide)⟩,hne _ (by decide)⟩,hne _ (by decide)⟩,
    hne _ (by decide)⟩,
    hne _ (by decide)⟩,by omega⟩,by omega⟩

lemma hex4_inert {a b c d : Char} {n : ℕ} (h : hex4 a b c d = some n) :
    [a,b,c,d].all inert = true := by
  unfold hex4 at h
  obtain ⟨na,ha,h⟩ := Option.bind_eq_some_iff.mp h
  obtain ⟨nb,hb,h⟩ := Option.bind_eq_some_iff.mp h
  obtain ⟨nc,hc,h⟩ := Option.bind_eq_some_iff.mp h
  obtain ⟨nd,hd,-⟩ := Option.bind_eq_some_iff.mp h
  simp only [List.all_cons,hexValue_inert ha,hexValue_inert hb,hexValue_inert hc,hexValue_inert hd,
    List.all_nil,Bool.and_self]

lemma Body.unicode {p q : List Char} {us : List ℕ} (h : Body p q us) {a b c d : Char} {n : ℕ}
    (hn : hex4 a b c d = some n) :
    Body ('\\' :: 'u' :: a :: b :: c :: d :: p) ('\\' :: 'u' :: a :: b :: c :: d :: q)
    (n :: us) where
  shrinks tail := by
    have hdigits := compact_inert_append (hex4_inert hn) (p ++ tail)
    rw [h.shrinks] at hdigits
    exact (compact_escape (by decide) _).trans (congrArg (fun t => '\\' :: 'u' :: t) hdigits)
  reads rest := by
    simp only [List.cons_append,parseUnits,hn,h.reads,Option.bind_eq_bind,Option.bind_some]
    rfl

lemma unescapeChar_safe {e : Char} {n : ℕ} (h : unescapeChar e = some n) :
    e ≠ 'u' ∧ e ≠ '<' ∧ e ≠ '>' ∧ e ≠ '&' ∧ e.toNat ≠ 0x2028 ∧ e.toNat ≠ 0x2029 := by
  unfold unescapeChar at h
  split_ifs at h with h1 h2 h3 h4 h5 h6
  · obtain rfl | rfl | rfl := h1
    all_goals decide
  · subst h2
    decide
  · subst h3
    decide
  · subst h4
    decide
  · subst h5
    decide
  · subst h6
    decide

lemma Body.escape {p q : List Char} {us : List ℕ} (h : Body p q us) {e : Char} {n : ℕ}
    (hn : unescapeChar e = some n) :
    Body ('\\' :: e :: p) ('\\' :: e :: q) (n :: us) where
  shrinks tail := by
    have hrest := h.shrinks tail
    rw [List.cons_append,List.cons_append,compact_escape (unescapeChar_safe hn).2,hrest]
    rfl
  reads rest := by
    rw [List.cons_append,List.cons_append,parseUnits]
    · rw [hn,h.reads]
      rfl
    · intro a b c d tail he
      exact absurd he.symm (unescapeChar_safe hn).1.symm

lemma Body.plain {p q : List Char} {us : List ℕ} (h : Body p q us) {c : Char} (hq : c ≠ '"')
    (hb : c ≠ '\\')
    (hlow : ¬ c.toNat < 32) : ∃ q', Body (c :: p) q' (c.toNat :: us) := by
  have hstay : (c != '"') = true := bne_iff_ne.mpr hq
  have hslash : (c == '\\') = false := beq_false_of_ne hb
  by_cases hesc : c = '<' ∨ c = '>' ∨ c = '&' ∨ c.toNat = 0x2028 ∨ c.toNat = 0x2029
  · refine ⟨unicodeEscape c.toNat ++ q,?_,?_⟩
    · intro tail
      rw [List.cons_append,compact,if_pos rfl,if_pos hesc,hstay,hslash,List.append_assoc]
      exact congrArg _ (h.shrinks tail)
    · intro rest
      have hsmall : c.toNat < 65536 := by
        obtain rfl | rfl | rfl | h8 | h9 := hesc
        · decide
        · decide
        · decide
        · omega
        · omega
      rw [List.append_assoc,parseUnits_unicodeEscape hsmall,h.reads]
      rfl
  · refine ⟨c :: q,?_,?_⟩
    · intro tail
      rw [List.cons_append,compact,if_pos rfl,if_neg hesc,hstay,hslash]
      exact congrArg _ (h.shrinks tail)
    · intro rest
      rw [List.cons_append,parseUnits_plain hq hb hlow,h.reads]
      rfl

lemma Written.body {p : List Char} {us : List ℕ} (h : Written p us) : ∃ q, Body p q us := by
  induction h with
  | quote => exact ⟨_,.quote⟩
  | unicode hn _ ih =>
    obtain ⟨q,hq⟩ := ih
    exact ⟨_,hq.unicode hn⟩
  | escape hn _ ih =>
    obtain ⟨q,hq⟩ := ih
    exact ⟨_,hq.escape hn⟩
  | char hq hb hlow _ ih =>
    obtain ⟨q,hbody⟩ := ih
    exact hbody.plain hq hb hlow

/-- A string literal is compacted, and read as before. -/
lemma Written.shrinks {k : List Char} {us : List ℕ} (h : Written k us) :
    ∃ q, Shrinks ('"' :: k) ('"' :: q) ∧
    ∀ more, parseString ('"' :: q ++ more) = some (String.ofList (joinUnits us),more) := by
  obtain ⟨q,hbody⟩ := h.body
  refine ⟨q,?_,?_⟩
  · intro tail
    rw [List.cons_append,compact,if_neg (by decide),if_neg (by decide)]
    exact congrArg _ (hbody.shrinks tail)
  · intro more
    rw [List.cons_append,parseString,hbody.reads]
    rfl

end strings

/-- A text that is read as a value before whatever may follow one. -/
structure Reads (q : List Char) (j : Json) : Prop where
  head : ∃ c cs, q = c :: cs ∧ isSpace c = false ∧ c ≠ ']'
  value : ∀ {fuel}, q.length ≤ fuel → ∀ rest, Delimited rest →
    parseValue (fuel+1) (q ++ rest) = some (j,rest)

/-- A text that is read as the items of an array, with its closing bracket. -/
structure ReadsItems (q : List Char) (items : List Json) : Prop where
  head : ∃ c cs, q = c :: cs ∧ isSpace c = false ∧ c ≠ ']'
  items : ∀ {fuel}, q.length ≤ fuel → ∀ rest, parseItems (fuel+1) (q ++ rest) = some (items,rest)

/-- A text that is read as the members of an object, with its closing brace. -/
structure ReadsMembers (q : List Char) (members : List (String × Json)) : Prop where
  head : ∃ cs, q = '"' :: cs
  members : ∀ {fuel}, q.length ≤ fuel → ∀ rest,
    parseMembers (fuel+1) (q ++ rest) = some (members,rest)

lemma Reads.length_pos {q : List Char} {j : Json} (h : Reads q j) : 0 < q.length := by
  obtain ⟨c,cs,rfl,-⟩ := h.head
  exact Nat.succ_pos _

lemma Reads.parse {q : List Char} {j : Json} (h : Reads q j) : Json.parse q = some j := by
  have hv := h.value (le_refl _) [] (by simp [Delimited])
  rw [List.append_nil] at hv
  simp only [Json.parse,hv]
  rfl

lemma Reads.null : Reads ['n','u','l','l'] .null := ⟨⟨_,_,rfl,by decide,by decide⟩,fun _ _ _ => rfl⟩

lemma Reads.true : Reads ['t','r','u','e'] (.bool Bool.true) :=
    ⟨⟨_,_,rfl,by decide,by decide⟩,fun _ _ _ => rfl⟩

lemma Reads.false : Reads ['f','a','l','s','e'] (.bool Bool.false) :=
    ⟨⟨_,_,rfl,by decide,by decide⟩,fun _ _ _ => rfl⟩

lemma Reads.num (n : Number) : Reads (encodeNumber n) (.num n) :=
  ⟨encode_head (.num n),fun _ _ hrest => parseValue_number n hrest _⟩

lemma Reads.str {q : List Char} {s : String}
    (h : ∀ more, parseString ('"' :: q ++ more) = some (s,more)) :
    Reads ('"' :: q) (.str s) where
  head := ⟨_,_,rfl,by decide,by decide⟩
  value _ rest _ := by
    have hs := h rest
    rw [List.cons_append] at hs
    simp only [List.cons_append,parseValue,skipSpace_cons (by decide : isSpace '"' = Bool.false),hs]
    rfl

lemma Reads.emptyArr : Reads ['[',']'] (.arr []) := ⟨⟨_,_,rfl,by decide,by decide⟩,fun _ _ _ => rfl⟩

lemma Reads.emptyObj : Reads ['\x7b','\x7d'] (.obj []) :=
    ⟨⟨_,_,rfl,by decide,by decide⟩,fun _ _ _ => rfl⟩

lemma Reads.arr {q : List Char} {items : List Json} (h : ReadsItems q items) :
    Reads ('[' :: q) (.arr items) where
  head := ⟨_,_,rfl,by decide,by decide⟩
  value {fuel} hf rest _ := by
    rw [List.length_cons] at hf
    obtain ⟨f,rfl⟩ : ∃ f, fuel = f+1 := ⟨fuel-1,by omega⟩
    have hitems := h.items (by omega : q.length ≤ f) rest
    obtain ⟨c,cs,rfl,hspace,hc⟩ := h.head
    rw [List.cons_append,List.cons_append,parseValue_array _ hspace hc,← List.cons_append,hitems]
    rfl

lemma Reads.obj {q : List Char} {members : List (String × Json)} (h : ReadsMembers q members) :
    Reads ('\x7b' :: q) (.obj members) where
  head := ⟨_,_,rfl,by decide,by decide⟩
  value {fuel} hf rest _ := by
    rw [List.length_cons] at hf
    obtain ⟨f,rfl⟩ : ∃ f, fuel = f+1 := ⟨fuel-1,by omega⟩
    have hmembers := h.members (by omega : q.length ≤ f) rest
    obtain ⟨cs,rfl⟩ := h.head
    rw [List.cons_append,List.cons_append,parseValue_object,← List.cons_append,hmembers]
    rfl

lemma ReadsItems.last {q : List Char} {j : Json} (h : Reads q j) : ReadsItems (q ++ [']']) [j] where
  head := by
    obtain ⟨c,cs,rfl,hc⟩ := h.head
    exact ⟨c,_,rfl,hc⟩
  items {fuel} hf rest := by
    have hpos := h.length_pos
    rw [List.length_append,List.length_singleton] at hf
    obtain ⟨f,rfl⟩ : ∃ f, fuel = f+1 := ⟨fuel-1,by omega⟩
    have hv := h.value (by omega : q.length ≤ f) (']' :: rest) (by simp [Delimited])
    simp only [List.append_assoc,List.cons_append,List.nil_append,parseItems,hv,Option.bind_eq_bind,
      Option.bind_some,
      skipSpace_cons (by decide : isSpace ']' = false)]
    rfl

lemma ReadsItems.cons {q r : List Char} {j : Json} {items : List Json} (h : Reads q j)
    (hr : ReadsItems r items) :
    ReadsItems (q ++ ',' :: r) (j :: items) where
  head := by
    obtain ⟨c,cs,rfl,hc⟩ := h.head
    exact ⟨c,_,rfl,hc⟩
  items {fuel} hf rest := by
    rw [List.length_append,List.length_cons] at hf
    obtain ⟨f,rfl⟩ : ∃ f, fuel = f+1 := ⟨fuel-1,by omega⟩
    have hpos := h.length_pos
    have hv := h.value (by omega : q.length ≤ f) (',' :: (r ++ rest)) (by simp [Delimited])
    have hitems := hr.items (by omega : r.length ≤ f) rest
    simp only [List.append_assoc,List.cons_append,parseItems,hv,Option.bind_eq_bind,
      Option.bind_some,
      skipSpace_cons (by decide : isSpace ',' = false)]
    exact congrArg (Option.bind · _) hitems

section members
variable {k q : List Char} {key : String} {j : Json}

lemma ReadsMembers.last (hk : ∀ more, parseString ('"' :: k ++ more) = some (key,more))
    (h : Reads q j) :
    ReadsMembers ('"' :: k ++ ':' :: (q ++ ['\x7d'])) [(key,j)] where
  head := ⟨_,rfl⟩
  members {fuel} hf rest := by
    simp only [List.length_append,List.length_cons,List.length_nil] at hf
    obtain ⟨f,rfl⟩ : ∃ f, fuel = f+1 := ⟨fuel-1,by omega⟩
    have hv := h.value (by omega : q.length ≤ f) ('\x7d' :: rest) (by simp [Delimited])
    have hkey := hk (':' :: (q ++ '\x7d' :: rest))
    rw [List.cons_append] at hkey
    simp only [List.append_assoc,List.cons_append,List.nil_append,parseMembers,
      skipSpace_cons (by decide : isSpace '"' = false),hkey,hv,Option.bind_eq_bind,Option.bind_some,
      skipSpace_cons (by decide : isSpace ':' = false),
      skipSpace_cons (by decide : isSpace '\x7d' = false)]
    rfl

lemma ReadsMembers.cons (hk : ∀ more, parseString ('"' :: k ++ more) = some (key,more))
    (h : Reads q j) {r : List Char}
    {members : List (String × Json)} (hr : ReadsMembers r members) :
    ReadsMembers ('"' :: k ++ ':' :: (q ++ ',' :: r)) ((key,j) :: members) where
  head := ⟨_,rfl⟩
  members {fuel} hf rest := by
    simp only [List.length_append,List.length_cons] at hf
    obtain ⟨f,rfl⟩ : ∃ f, fuel = f+1 := ⟨fuel-1,by omega⟩
    have hv := h.value (by omega : q.length ≤ f) (',' :: (r ++ rest)) (by simp [Delimited])
    have hmembers := hr.members (by omega : r.length ≤ f) rest
    have hkey := hk (':' :: (q ++ ',' :: (r ++ rest)))
    rw [List.cons_append] at hkey
    simp only [List.append_assoc,List.cons_append,parseMembers,
      skipSpace_cons (by decide : isSpace '"' = false),hkey,hv,
      Option.bind_eq_bind,Option.bind_some,skipSpace_cons (by decide : isSpace ':' = false),
      skipSpace_cons (by decide : isSpace ',' = false)]
    exact congrArg (Option.bind · _) hmembers

end members

/-- A text that is read as a form. -/
def ReadsAs (q : List Char) : Form → Prop
  | .value j => Reads q j
  | .items js => ReadsItems q js
  | .members ms => ReadsMembers q ms

/-- What spells a form is compacted to a text that is read as the same. -/
lemma Spells.shrinks {p : List Char} {f : Form} (h : Spells p f) :
    ∃ q, Shrinks p q ∧ ReadsAs q f := by
  induction h with
  | blank hw _ ih =>
    obtain ⟨q,hq,hreads⟩ := ih
    exact ⟨q,hq.space hw,hreads⟩
  | null => exact ⟨_,.plain (by decide),Reads.null⟩
  | bool b =>
    cases b with
    | true => exact ⟨_,.plain (by decide),Reads.true⟩
    | false => exact ⟨_,.plain (by decide),Reads.false⟩
  | num n => exact ⟨_,.plain (encodeNumber_plain n),Reads.num n⟩
  | str hk =>
    obtain ⟨q,hq,hreads⟩ := hk.shrinks
    exact ⟨_,hq,Reads.str hreads⟩
  | emptyArr hw =>
    exact ⟨_,.cons (by decide) (.mark hw (by decide) (.plain (by decide))),Reads.emptyArr⟩
  | emptyObj hw =>
    exact ⟨_,.cons (by decide) (.mark hw (by decide) (.plain (by decide))),Reads.emptyObj⟩
  | arr _ ih =>
    obtain ⟨q,hq,hreads⟩ := ih
    exact ⟨_,.cons (by decide) hq,Reads.arr hreads⟩
  | obj _ ih =>
    obtain ⟨q,hq,hreads⟩ := ih
    exact ⟨_,.cons (by decide) hq,Reads.obj hreads⟩
  | lastItem _ hw ih =>
    obtain ⟨q,hq,hreads⟩ := ih
    exact ⟨_,hq.append (.mark hw (by decide) (.plain (by decide))),ReadsItems.last hreads⟩
  | item _ hw _ ih ihmore =>
    obtain ⟨q,hq,hreads⟩ := ih
    obtain ⟨r,hr,hmore⟩ := ihmore
    exact ⟨_,hq.append (.mark hw (by decide) hr),ReadsItems.cons hreads hmore⟩
  | lastMember hk hw _ hx ih =>
    obtain ⟨k,hkey,hname⟩ := hk.shrinks
    obtain ⟨q,hq,hreads⟩ := ih
    have hvalue := hq.append (.mark hx (c := '}') (by decide)
      (.plain (by decide : [].all plain = Bool.true)))
    exact ⟨_,hkey.append (.mark hw (by decide) hvalue),ReadsMembers.last hname hreads⟩
  | member hk hw _ hx _ ih ihmore =>
    obtain ⟨k,hkey,hname⟩ := hk.shrinks
    obtain ⟨q,hq,hreads⟩ := ih
    obtain ⟨r,hr,hmore⟩ := ihmore
    have hvalue := hq.append (.mark hx (c := ',') (by decide) hr)
    exact ⟨_,hkey.append (.mark hw (by decide) hvalue),ReadsMembers.cons hname hreads hmore⟩

/-- The compacted text of a document is read as that document. -/
theorem reads_compact {cs : List Char} {j : Json} (h : parse cs = some j) :
    Reads (compact false false cs) j := by
  obtain ⟨p,w,rfl,hp,hw⟩ := spells_of_parse h
  obtain ⟨q,hq,hreads⟩ := hp.shrinks
  have hblank : Shrinks (w ++ []) [] := .space hw (fun _ => rfl)
  have hall := (hq.append hblank) []
  rw [List.append_nil,List.append_nil,List.append_nil] at hall
  rw [hall]
  rw [compact,List.append_nil]
  exact hreads

end Manvi.Encoding.Json
