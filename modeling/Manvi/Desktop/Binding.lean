import Manvi.Desktop.Broker
import Manvi.Session.VisibleText

/-! What a binding pins down: two uses of an action with the same bytes agree in their session, run
and epoch and in every field of the action but its approval. -/
namespace Manvi.Desktop
open Manvi.Encoding Json

section Separates
variable {α β : Type}

/-- An encoding of some values that tells them apart whatever follows its delimiter. -/
def Separates (encode : α → List Char) (p : α → Prop) : Prop :=
  ∀ {a b : α} {r r' : List Char}, p a → p b → Delimited r → Delimited r' →
  encode a ++ r = encode b ++ r' →
    a = b ∧ r = r'

lemma delimited_comma (r : List Char) : Delimited (',' :: r) := by simp [Delimited]

lemma delimited_member (key : String) (value r : List Char) :
    Delimited (member ',' key value ++ r) :=
  delimited_comma _

lemma Separates.member {encode : α → List Char} {p : α → Prop} (h : Separates encode p) {c : Char}
    {key : String}
    {a b : α} {r r' : List Char} (ha : p a) (hb : p b) (hr : Delimited r) (hr' : Delimited r')
    (heq : Desktop.member c key (encode a) ++ r = Desktop.member c key (encode b) ++ r') :
    a = b ∧ r = r' := by
  simp only [Desktop.member,List.cons_append,List.append_assoc] at heq
  have htail := List.append_cancel_left (List.cons.inj heq).2
  exact h ha hb hr hr' (List.cons.inj htail).2

lemma Separates.comp {encode : β → List Char} {p : β → Prop} (h : Separates encode p) {f : α → β}
    {q : α → Prop}
    (hf : ∀ {a b}, q a → q b → f a = f b → a = b) (hp : ∀ a, q a → p (f a)) :
    Separates (fun a => encode (f a)) q := by
  intro a b r r' ha hb hr hr' heq
  obtain ⟨he,hrest⟩ := h (hp a ha) (hp b hb) hr hr' heq
  exact ⟨hf ha hb he,hrest⟩

/-- A missing value is written null, which no value of an encoding without a leading n is. -/
lemma Separates.optional {encode : α → List Char} {p : α → Prop} (h : Separates encode p)
    (hn : ∀ a, ∃ c cs, encode a = c :: cs ∧ c ≠ 'n') :
    Separates (Desktop.optional encode) (fun a => ∀ v ∈ a, p v) := by
  intro a b r r' ha hb hr hr' heq
  cases a with
  | none => cases b with
    | none => exact ⟨rfl,List.append_cancel_left heq⟩
    | some b =>
      obtain ⟨c,cs,hc,hne⟩ := hn b
      simp only [Desktop.optional] at heq
      rw [hc] at heq
      exact absurd (List.cons.inj heq).1.symm hne
  | some a => cases b with
    | none =>
      obtain ⟨c,cs,hc,hne⟩ := hn a
      simp only [Desktop.optional] at heq
      rw [hc] at heq
      exact absurd (List.cons.inj heq).1 hne
    | some b =>
      obtain ⟨he,hrest⟩ := h (ha a rfl) (hb b rfl) hr hr' heq
      exact ⟨congrArg some he,hrest⟩

end Separates

lemma parseUnits_quoteChar (c : Char) (rest : List Char) :
    parseUnits (quoteChar c ++ rest) = (parseUnits rest).map (fun r => (c.toNat :: r.1,r.2)) := by
  unfold quoteChar
  by_cases h : c.toNat < 32 ∨ c = '"' ∨ c = '\\'
  · rw [if_pos h,parseUnits_encodeChar]
  · rw [if_neg h]
    simp only [not_or] at h
    exact parseUnits_plain h.2.1 h.2.2 h.1 rest

lemma parseUnits_quote (cs rest : List Char) :
    parseUnits (cs.flatMap quoteChar ++ '"' :: rest) = some (cs.map Char.toNat,rest) := by
  induction cs with
  | nil => rfl
  | cons c cs ih =>
    rw [List.flatMap_cons,List.append_assoc,parseUnits_quoteChar,ih]
    rfl

lemma parseString_quote (s : String) (rest : List Char) :
    parseString (quote s ++ rest) = some (s,rest) := by
  simp only [quote,List.cons_append,List.append_assoc,parseString,List.nil_append,parseUnits_quote,
    Option.bind_eq_bind,Option.bind_some,joinUnits_map,String.ofList_toList]
  rfl

lemma quote_inj {s t : String} {r r' : List Char} (h : quote s ++ r = quote t ++ r') :
    s = t ∧ r = r' := by
  have hp := congrArg parseString h
  rw [parseString_quote,parseString_quote] at hp
  exact Prod.mk.inj (Option.some.inj hp)

lemma quote_separates : Separates quote (fun _ => True) := fun _ _ _ _ h => quote_inj h

lemma number_separates : Separates encodeNumber (fun _ => True) := by
  intro m n r r' _ _ hr hr' h
  have hp := congrArg parseNumber h
  rw [parseNumber_encode m hr,parseNumber_encode n hr'] at hp
  exact Prod.mk.inj (Option.some.inj hp)

lemma digitChar_ne (d : Fin 10) : digitChar d ≠ 'n' := by
  revert d
  decide

lemma number_head (n : Number) : ∃ c cs, encodeNumber n = c :: cs ∧ c ≠ 'n' := by
  obtain ⟨d,ds,hd,_⟩ := natDigits_lead n.whole
  unfold encodeNumber
  rw [hd]
  cases n.negative with
  | true => exact ⟨'-',_,rfl,by decide⟩
  | false => exact ⟨digitChar d,_,rfl,digitChar_ne d⟩

lemma integer_separates : Separates integer (fun _ => True) := by
  apply number_separates.comp
  · intro m n _ _ h
    injection h with hsign habs
    have hiff : m < 0 ↔ n < 0 := decide_eq_decide.mp hsign
    omega
  · exact fun _ _ => trivial

lemma kind_name_inj {k l : ActionKind} (h : k.name = l.name) : k = l := by
  cases k <;> cases l <;> first | rfl | exact absurd h (by decide)

lemma effect_name_inj {e f : Effect} (h : e.name = f.name) : e = f := by
  cases e <;> cases f <;> first | rfl | exact absurd h (by decide)

/-- Finite doubles are written so that they read back as themselves. -/
def Faithful (codec : Codec) : Prop :=
  ∀ {v w : UInt64}, isFinite v = true → isFinite w = true →
  codec.formatFinite v = codec.formatFinite w → v = w

/-- An action with coordinates that are numbers. -/
def Action.Finite (a : Action) : Prop := (∀ v ∈ a.x, isFinite v = true) ∧ ∀ v ∈ a.y,
    isFinite v = true

lemma Action.finite_of_validate {a : Action} {u : Unit} (h : a.validate = .ok u) : a.Finite := by
  unfold Action.validate at h
  have hcoords : (a.x.any (fun v => !isFinite v) || a.y.any (fun v => !isFinite v)) = false := by
    by_contra hc
    simp only [Bool.not_eq_false] at hc
    rw [if_pos hc] at h
    split_ifs at h
  simp only [Bool.or_eq_false_iff] at hcoords
  constructor
  · intro v hv
    have hx := hcoords.1
    rw [Option.mem_def.mp hv] at hx
    simpa using hx
  · intro v hv
    have hy := hcoords.2
    rw [Option.mem_def.mp hv] at hy
    simpa using hy

/-- The text of an action tells every field of it but the approval. -/
theorem Action.encode_inj {codec : Codec} (hcodec : Faithful codec) {a b : Action} (ha : a.Finite)
    (hb : b.Finite)
    {r r' : List Char} (h : a.encode codec ++ r = b.encode codec ++ r') :
    a.bare = b.bare ∧ r = r' := by
  have hnumber : Separates (optional (fun v => encodeNumber (codec.formatFinite v)))
      (fun v => ∀ x ∈ v, isFinite x = true) := by
    apply Separates.optional
    · exact number_separates.comp hcodec (fun _ _ => trivial)
    · exact fun v => number_head _
  have hkind : Separates (fun k : ActionKind => quote k.name) (fun _ => True) :=
    quote_separates.comp (q := fun _ => True) (fun _ _ => kind_name_inj) (fun _ _ => trivial)
  have heffect : Separates (fun e : Effect => quote e.name) (fun _ => True) :=
    quote_separates.comp (q := fun _ => True) (fun _ _ => effect_name_inj) (fun _ _ => trivial)
  have htext : Separates (optional quote) (fun v => ∀ x ∈ v, True) :=
    quote_separates.optional (fun s => ⟨'"',_,rfl,by decide⟩)
  have hscroll : Separates (optional integer) (fun v => ∀ x ∈ v, True) :=
    integer_separates.optional (fun n => number_head _)
  simp only [Action.encode,List.append_assoc] at h
  obtain ⟨hid,h⟩ := quote_separates.member trivial trivial (delimited_member _ _ _)
    (delimited_member _ _ _) h
  obtain ⟨hobs,h⟩ := quote_separates.member trivial trivial (delimited_member _ _ _)
    (delimited_member _ _ _) h
  obtain ⟨htarget,h⟩ := quote_separates.member trivial trivial (delimited_member _ _ _)
    (delimited_member _ _ _) h
  obtain ⟨hk,h⟩ := hkind.member trivial trivial (delimited_member _ _ _) (delimited_member _ _ _) h
  obtain ⟨ht,h⟩ := htext.member (fun _ _ => trivial) (fun _ _ => trivial) (delimited_member _ _ _)
    (delimited_member _ _ _) h
  obtain ⟨hx,h⟩ := hnumber.member ha.1 hb.1 (delimited_member _ _ _) (delimited_member _ _ _) h
  obtain ⟨hy,h⟩ := hnumber.member ha.2 hb.2 (delimited_member _ _ _) (delimited_member _ _ _) h
  obtain ⟨hs,h⟩ := hscroll.member (fun _ _ => trivial) (fun _ _ => trivial) (delimited_member _ _ _)
    (delimited_member _ _ _) h
  obtain ⟨he,h⟩ := heffect.member trivial trivial (delimited_member _ _ _)
    (delimited_member _ _ _) h
  have hr := (List.cons.inj (List.append_cancel_left h)).2
  refine ⟨?_,hr⟩
  simp only [Action.bare,hid,hobs,htarget,hk,ht,hx,hy,hs,he]

/-- Two uses that agree in everything but the approval the action names. -/
def Use.Same (u v : Use) : Prop :=
  u.session = v.session ∧ u.run = v.run ∧ u.epoch = v.epoch ∧ u.action.bare = v.action.bare

lemma utf8_inj {cs ds : List Char}
    (h : cs.flatMap String.utf8EncodeChar = ds.flatMap String.utf8EncodeChar) :
    cs = ds := by
  have hbytes : cs.utf8Encode = ds.utf8Encode := by simp only [List.utf8Encode,h]
  rw [← String.toByteArray_ofList,← String.toByteArray_ofList,String.toByteArray_inj] at hbytes
  exact String.ofList_injective hbytes

theorem Use.same_of_bytes {codec : Codec} (hcodec : Faithful codec) {u v : Use}
    (hu : u.action.Finite)
    (hv : v.action.Finite) (h : u.bytes codec = v.bytes codec) : u.Same v := by
  have htext := utf8_inj h
  obtain ⟨hsession,htext⟩ := quote_inj (List.cons.inj htext).2
  obtain ⟨hrun,htext⟩ := quote_inj (List.cons.inj htext).2
  obtain ⟨hepoch,htext⟩ := integer_separates trivial trivial (delimited_comma _) (delimited_comma _)
    (List.cons.inj htext).2
  have haction := (Action.encode_inj hcodec hu hv (List.cons.inj htext).2).1
  exact ⟨hsession,hrun,by exact_mod_cast hepoch,haction⟩

lemma sha256Hex_inj {a b : List UInt8} (h : sha256Hex a = sha256Hex b) : sha256 a = sha256 b :=
  Session.flatMap_hexByte_injective (String.ofList_injective h)

/-- Equal bindings come from uses that agree, unless their bytes are a collision of SHA-256. -/
theorem Use.same_of_binding {codec : Codec} (hcodec : Faithful codec) {u v : Use}
    (hu : u.action.Finite)
    (hv : v.action.Finite) (h : u.binding codec = v.binding codec)
    (hfree : sha256 (u.bytes codec) = sha256 (v.bytes codec) → u.bytes codec = v.bytes codec) :
    u.Same v :=
  Use.same_of_bytes hcodec hu hv (hfree (sha256Hex_inj h))

section Identity

lemma decimal_inj {m n : ℕ} (h : (natDigits m).map digitChar = (natDigits n).map digitChar) :
    m = n := by
  have hm := parseWhole_append m (show EndsDigits [] from rfl)
  have hn := parseWhole_append n (show EndsDigits [] from rfl)
  rw [h,hn] at hm
  exact (Prod.mk.inj (Option.some.inj hm)).1.symm

/-- The counter can be read off an identity. -/
lemma identity_inj {kind : String} {t t' n n' : ℕ} (h : identity kind t n = identity kind t' n') :
    n = n' := by
  have hchars := congrArg String.toList h
  simp only [identity,decimal,String.toList_append,String.toList_ofList,List.append_assoc] at hchars
  have htail := List.append_cancel_left (List.append_cancel_left hchars)
  have hends : ∀ cs, EndsDigits ("-".toList ++ cs) := fun cs => rfl
  have hdigits := congrArg takeDigits htail
  rw [takeDigits_append _ (hends _),takeDigits_append _ (hends _)] at hdigits
  exact decimal_inj (List.append_cancel_left (Prod.mk.inj hdigits).2)

end Identity
end Manvi.Desktop
