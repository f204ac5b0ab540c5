import Manvi.Encoding.JsonLex
import Manvi.Session.Visible

/-! The parameters of a call written as markup: what a tool's schema declares of each, and the JSON
value that its text is given. -/
namespace Manvi.OpenAICompat
open Manvi.Encoding

structure ToolSchema where
  name : String
  inputSchema : RawMessage
  deriving DecidableEq

/-- The type member of a property, decoded into an interface. -/
def typeField : Json.StructField (Option Json) :=
  ("type",fun _ v =>
    if !v.inRange then .error "json: cannot unmarshal number into Go value of type float64"
    else .ok (match v with
      | .null => none
      | v => some v))

/-- A member of the properties, with what its schema gives as its type. -/
def property (m : String × Json) : Except String (String × Option Json) := do
  return (m.1,← Json.storeInto [typeField] none m.2)

def propertiesField : Json.StructField (List (String × Option Json)) :=
  ("properties",fun cur v => match v with
    | .obj members => do return cur ++ (← members.mapM property)
    | .null => .ok cur
    | _ => .error "json: cannot unmarshal into Go struct field .properties")

/-- The type that a property declares: of several, the first that is not null. -/
def declaredType : Option Json → Option String
  | some (.str s) => some s
  | some (.arr items) => items.findSome? (fun item => match item with
    | .str s => if s ≠ "null" then some s else none
    | _ => none)
  | _ => none

/-- The declared type of a tool's parameter, and no text where there is none. -/
def paramTypes (tools : List ToolSchema) (toolName key : String) : String :=
  match tools.find? (fun t => t.name = toolName) with
  | none => ""
  | some t => match (Json.unmarshal t.inputSchema).map (Json.storeInto [propertiesField] []) with
    | some (.ok properties) =>
      ((properties.reverse.find? (fun p => p.1 = key)).bind (fun p => declaredType p.2)).getD ""
    | _ => ""

def isValidNumber (s : String) : Bool := match Json.parseNumber s.toList with
  | some (_,[]) => true
  | _ => false

/-- Whether a text decodes into a json.Number: null does and changes nothing, and a string does
whose text is a number. -/
def decodesNumber (text : List Char) : Bool := match Json.unmarshal text with
  | some .null => true
  | some (.num _) => true
  | some (.str s) => isValidNumber s
  | _ => false

/-- One parameter's value by its declared type. -/
def typedParam (value : String) (declared : String) : RawMessage :=
  let trimmed := Runes.trimSpace value.toList
  let asString := Json.encodeString value
  if declared = "number" ∨ declared = "integer" then
    if trimmed = [] then asString
    else if decodesNumber trimmed then trimmed
    else asString
  else if declared = "boolean" then
    if trimmed.map Char.toLower = "true".toList then "true".toList
    else if trimmed.map Char.toLower = "false".toList then "false".toList
    else asString
  else if declared = "object" ∨ declared = "array" then
    if trimmed.head? = some (if declared = "array" then '[' else '{') ∧ Json.valid trimmed then
      trimmed
    else asString
  else asString

/-- The kind of value that a declared type stands for. -/
def HasKind (declared : String) : Json → Prop
  | .num _ => declared = "number" ∨ declared = "integer"
  | .bool _ => declared = "boolean"
  | .obj _ => declared = "object"
  | .arr _ => declared = "array"
  | _ => False

/-- A parameter's JSON keeps to its text or to its declared type: it is the string that decodes to
the text, or a value of the declared kind. -/
def KeepsKind (value declared : String) (out : RawMessage) : Prop :=
  Json.parse out = some (.str value) ∨ ∃ j, Json.parse out = some j ∧ HasKind declared j

/-- A text for a number that decodes without being one: null, or a string that holds a number. -/
def Lenient (value declared : String) : Prop :=
  (declared = "number" ∨ declared = "integer") ∧
  ∃ j, Json.unmarshal (Runes.trimSpace value.toList) = some j ∧
  (j = .null ∨ ∃ s, j = .str s ∧ isValidNumber s = true)

lemma parse_encodeString (value : String) :
    Json.parse (Json.encodeString value) = some (.str value) :=
  Json.parse_encode (.str value)

lemma keepsKind_asString (value declared : String) :
    KeepsKind value declared (Json.encodeString value) :=
  .inl (parse_encodeString value)

/-- What a value opens with tells its kind. -/
lemma parseValue_opens {fuel : ℕ} {cs rest : List Char} {j : Json}
    (h : Json.parseValue (fuel+1) cs = some (j,rest)) :
    (∀ t, Json.skipSpace cs = '{' :: t → ∃ members, j = .obj members) ∧
    (∀ t, Json.skipSpace cs = '[' :: t → ∃ items, j = .arr items) ∧
    (∀ s, j = .str s → ∃ t, Json.skipSpace cs = '"' :: t) := by
  unfold Json.parseValue at h
  split at h
  next hs => cases h; simp [hs]
  next hs => cases h; simp [hs]
  next hs => cases h; simp [hs]
  next hs =>
    obtain ⟨r,hr,h⟩ := Option.bind_eq_some_iff.mp h
    cases h
    simp [hs]
  next hs =>
    split at h
    next => cases h; simp [hs]
    next =>
      obtain ⟨r,hr,h⟩ := Option.bind_eq_some_iff.mp h
      cases h
      simp [hs]
  next hs =>
    split at h
    next => cases h; simp [hs]
    next =>
      obtain ⟨r,hr,h⟩ := Option.bind_eq_some_iff.mp h
      cases h
      simp [hs]
  next rest' hnull htrue hfalse hquote harr hobj =>
    obtain ⟨r,hr,h⟩ := Option.bind_eq_some_iff.mp h
    cases h
    refine ⟨fun t ht => (hobj t ht).elim,fun t ht => (harr t ht).elim,?_⟩
    intro s hs
    cases hs

lemma skipSpace_of_head {c : Char} {cs : List Char} (hhead : cs.head? = some c)
    (hspace : Json.isSpace c = false) :
    ∃ t, Json.skipSpace cs = c :: t := by
  cases cs with
  | nil => cases hhead
  | cons d t =>
    cases hhead
    exact ⟨t,Json.skipSpace_cons hspace t⟩

/-- A string that holds a number is not the string of its own text. -/
lemma quoted_ne {value s : String} (h : Json.parse (Runes.trimSpace value.toList) = some (.str s))
    (hnum : isValidNumber s = true) : s ≠ value := by
  rintro rfl
  unfold isValidNumber at hnum
  cases hn : Json.parseNumber s.toList with
  | none =>
    rw [hn] at hnum
    cases hnum
  | some r =>
    obtain ⟨n,rest⟩ := r
    obtain ⟨c,t,hs,hc⟩ := Json.numeric_head n
    obtain ⟨hrune,hspace,-,hquote,-⟩ := Json.numeric_plain hc
    obtain ⟨t',htrim⟩ := Runes.trimSpace_cons hrune (t ++ rest)
    obtain ⟨rest',hv,-⟩ := Json.parse_value h
    obtain ⟨u,hu⟩ := (parseValue_opens hv).2.2 s rfl
    rw [Json.parseNumber_chars hn,hs,List.cons_append,htrim,Json.skipSpace_cons hspace] at hu
    cases hu
    exact hquote rfl

lemma decodesNumber_cases {text : List Char} (h : decodesNumber text = true) :
    ∃ j, Json.unmarshal text = some j ∧
      ((∃ n, j = .num n) ∨ j = .null ∨ ∃ s, j = .str s ∧ isValidNumber s = true) := by
  unfold decodesNumber at h
  split at h
  next hj => exact ⟨_,hj,.inr (.inl rfl)⟩
  next n hj => exact ⟨_,hj,.inl ⟨n,rfl⟩⟩
  next s hj => exact ⟨_,hj,.inr (.inr ⟨s,rfl,h⟩)⟩
  next => cases h

lemma decodesNumber_of_lenient {value declared : String} (h : Lenient value declared) :
    decodesNumber (Runes.trimSpace value.toList) = true := by
  obtain ⟨-,j,hj,rfl | ⟨s,rfl,hs⟩⟩ := h
  · simp only [decodesNumber,hj]
  · simp only [decodesNumber,hj,hs]

lemma trimmed_ne_of_lenient {value declared : String} (h : Lenient value declared) :
    Runes.trimSpace value.toList ≠ [] := by
  obtain ⟨-,j,hj,-⟩ := h
  intro hnil
  rw [hnil] at hj
  cases hj

/-- A declared container is passed through only when the text opens one of its kind. -/
lemma keepsKind_container {value declared : String} {text : List Char} {c : Char}
    (hkind : declared = "array" ∧ c = '[' ∨ declared = "object" ∧ c = '{')
    (hhead : text.head? = some c) (hvalid : Json.valid text = true) :
    KeepsKind value declared text := by
  obtain ⟨j,hj⟩ := Option.isSome_iff_exists.mp hvalid
  have hparse := Json.unmarshal_some hj
  obtain ⟨rest,hv,-⟩ := Json.parse_value hparse
  refine .inr ⟨j,hparse,?_⟩
  obtain ⟨rfl,rfl⟩ | ⟨rfl,rfl⟩ := hkind
  · obtain ⟨t,ht⟩ := skipSpace_of_head hhead (by decide)
    obtain ⟨items,rfl⟩ := (parseValue_opens hv).2.1 t ht
    rfl
  · obtain ⟨t,ht⟩ := skipSpace_of_head hhead (by decide)
    obtain ⟨members,rfl⟩ := (parseValue_opens hv).1 t ht
    rfl

/-- A parameter keeps to its text or its declared kind, unless a number is declared and the text is
null or a number in quotes. -/
theorem typedParam_keepsKind_iff (value declared : String) :
    KeepsKind value declared (typedParam value declared) ↔ ¬ Lenient value declared := by
  constructor
  · intro h hlenient
    have hdecl := hlenient.1
    have hout : typedParam value declared = Runes.trimSpace value.toList := by
      unfold typedParam
      simp only
      rw [if_pos hdecl,if_neg (trimmed_ne_of_lenient hlenient),
        if_pos (decodesNumber_of_lenient hlenient)]
    rw [hout] at h
    obtain ⟨-,j,hj,hkind⟩ := hlenient
    have hparse := Json.unmarshal_some hj
    obtain hstr | ⟨k,hk,hhas⟩ := h
    · rw [hparse] at hstr
      obtain rfl | ⟨s,rfl,hs⟩ := hkind
      · cases hstr
      · cases hstr
        exact quoted_ne hparse hs rfl
    · rw [hparse] at hk
      cases hk
      obtain rfl | ⟨s,rfl,-⟩ := hkind
      · exact hhas
      · exact hhas
  · intro hstrict
    have hstring := keepsKind_asString value declared
    unfold typedParam
    simp only
    split_ifs with hdecl hnil hnum hbool htrue hfalse hcont harr hpass hpass
    · exact hstring
    · obtain ⟨j,hj,⟨n,rfl⟩ | hother⟩ := decodesNumber_cases hnum
      · exact .inr ⟨_,Json.unmarshal_some hj,hdecl⟩
      · exact (hstrict ⟨hdecl,j,hj,hother⟩).elim
    · exact hstring
    · exact .inr ⟨.bool true,Json.parse_encode (.bool true),hbool⟩
    · exact .inr ⟨.bool false,Json.parse_encode (.bool false),hbool⟩
    · exact hstring
    · exact keepsKind_container (.inl ⟨harr,rfl⟩) hpass.1 hpass.2
    · exact hstring
    · exact keepsKind_container (.inr ⟨hcont.resolve_right harr,rfl⟩) hpass.1 hpass.2
    · exact hstring
    · exact hstring

/-- A parameter declared a number whose text is null comes out as null. -/
theorem null_passes_for_number :
    typedParam "null" "number" = "null".toList ∧
    ¬ KeepsKind "null" "number" (typedParam "null" "number") := by
  have hout : typedParam "null" "number" = "null".toList := by decide
  have hnull : Json.parse "null".toList = some .null := Json.parse_encode .null
  refine ⟨hout,?_⟩
  rw [hout]
  rintro (hstr | ⟨j,hj,hhas⟩)
  · rw [hnull] at hstr
    cases hstr
  · rw [hnull] at hj
    cases hj
    exact hhas

end Manvi.OpenAICompat
