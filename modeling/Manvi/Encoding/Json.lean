import Mathlib

/-! JSON documents as encoding/json reads and writes them.
A document is its syntax tree: member order, duplicate members and number literals are kept,
insignificant white space and the spelling of escapes are not. -/
namespace Manvi.Encoding

/-- A computation that succeeds has each of its steps succeed. -/
lemma bind_ok {ε α β : Type} {x : Except ε α} {f : α → Except ε β} {b : β}
    (h : (x >>= f) = .ok b) : ∃ a, x = .ok a ∧ f a = .ok b := by
  cases x with
  | error e => cases h
  | ok a => exact ⟨a,rfl,h⟩

lemma eq_ok_of_toOption {ε α : Type} {x : Except ε α} {a : α} (h : x.toOption = some a) :
    x = .ok a := by
  cases x with
  | error e => cases h
  | ok b =>
    cases h
    rfl

/-- A traversal that succeeds does so at every element. -/
lemma mapM_ok {ε α β : Type} {f : α → Except ε β} {as : List α} {bs : List β}
    (h : as.mapM f = .ok bs) : List.Forall₂ (fun a b => f a = .ok b) as bs := by
  induction as generalizing bs with
  | nil =>
    cases h
    exact .nil
  | cons a as ih =>
    rw [List.mapM_cons] at h
    obtain ⟨b,hb,h⟩ := bind_ok h
    obtain ⟨rest,hrest,h⟩ := bind_ok h
    cases h
    exact .cons hb (ih hrest)

/-- The exponent part of a number literal, with at least one digit. -/
structure Exponent where
  upper : Bool
  sign : Option Bool
  lead : Fin 10
  rest : List (Fin 10)
  deriving Repr, DecidableEq

/-- A number literal. An empty fraction is a literal without a decimal point. -/
structure Number where
  negative : Bool
  whole : ℕ
  fraction : List (Fin 10)
  exponent : Option Exponent
  deriving Repr, DecidableEq

/-- The syntax tree of a JSON document. -/
inductive Json where
  | null
  | bool (b : Bool)
  | num (n : Number)
  | str (s : String)
  | arr (items : List Json)
  | obj (members : List (String × Json))
  deriving Repr

namespace Json

/-- The literal of an integer. -/
def ofInt (n : ℤ) : Json := .num ⟨n < 0,n.natAbs,[],none⟩

/-- Case folding of the letters that can occur in a field name. -/
def foldChar (c : Char) : Char :=
  if c = '\u212a' then 'k' else if c = '\u017f' then 's' else c.toLower

/-- Decoding into a struct matches member names without regard to case. -/
def foldEq (a b : String) : Bool := a.toList.map foldChar == b.toList.map foldChar

/-- Reading a map[string]json.RawMessage: the last member with the name. -/
def lookup (members : List (String × Json)) (key : String) : Option Json :=
  (members.reverse.find? (fun m => m.1 == key)).map Prod.snd

/-- Decoding into a map keeps the last of several members with one name. -/
def dedup : List (String × Json) → List (String × Json)
  | [] => []
  | m :: rest => if rest.any (fun r => r.1 == m.1) then dedup rest else m :: dedup rest

/-- Encoding a map writes its members in byte order of their names. -/
def sortMembers (members : List (String × Json)) : List (String × Json) :=
  members.insertionSort (fun a b => a.1 ≤ b.1)

/-- Storing a member into a string field; null has no effect. -/
def putString (cur : String) : Json → Except String String
  | .str s => .ok s
  | .null => .ok cur
  | _ => .error "json: cannot unmarshal into Go value of type string"

def putBool (cur : Bool) : Json → Except String Bool
  | .bool b => .ok b
  | .null => .ok cur
  | _ => .error "json: cannot unmarshal into Go value of type bool"

/-- The value of an integer literal; a fraction or an exponent is refused, as is a value
outside int64. -/
def intValue (n : Number) : Option ℤ :=
  let v : ℤ := if n.negative then -(n.whole : ℤ) else n.whole
  if n.fraction = [] ∧ n.exponent = none ∧ -(2^63 : ℤ) ≤ v ∧ v < 2^63 then some v else none

def putInt (cur : ℤ) : Json → Except String ℤ
  | .num n => match intValue n with
    | some v => .ok v
    | none => .error "json: cannot unmarshal number into Go value of type int"
  | .null => .ok cur
  | _ => .error "json: cannot unmarshal into Go value of type int"

@[simp] theorem putString_str (cur s : String) : putString cur (.str s) = .ok s := rfl

@[simp] theorem putInt_ofInt (cur n : ℤ) (hl : -(2^63 : ℤ) ≤ n) (hh : n < 2^63) :
    putInt cur (ofInt n) = .ok n := by
  have hv : (if n < 0 then -(n.natAbs : ℤ) else (n.natAbs : ℤ)) = n := by
    split <;> omega
  simp only [ofInt,putInt,intValue,decide_eq_true_eq,hv,true_and]
  rw [if_pos ⟨hl,hh⟩]

def base64Alphabet : List Char :=
  "ABCDEFGHIJKLMNOPQRSTUVWXYZabcdefghijklmnopqrstuvwxyz0123456789+/".toList

def base64Value (c : Char) : Option ℕ :=
  let i := base64Alphabet.findIdx (· == c)
  if i < 64 then some i else none

def base64Char (n : ℕ) : Char := (base64Alphabet[n%64]?).getD '='

/-- Padded standard base64, four characters at a time. -/
def base64Groups : List Char → Option (List UInt8)
  | [] => some []
  | [a,b,'=','='] => do
    let n := 64*(← base64Value a)+(← base64Value b)
    return [UInt8.ofNat (n/16)]
  | [a,b,c,'='] => do
    let n := 4096*(← base64Value a)+64*(← base64Value b)+(← base64Value c)
    return [UInt8.ofNat (n/1024),UInt8.ofNat (n/4)]
  | a :: b :: c :: d :: rest => do
    let n := 262144*(← base64Value a)+4096*(← base64Value b)+64*(← base64Value c)+(← base64Value d)
    return UInt8.ofNat (n/65536) :: UInt8.ofNat (n/256) :: UInt8.ofNat n :: (← base64Groups rest)
  | _ => none

/-- Line breaks inside base64 text are skipped. -/
def base64Decode (s : String) : Option (List UInt8) :=
  base64Groups (s.toList.filter (fun c => c != '\n' && c != '\r'))

def base64Encode : List UInt8 → List Char
  | [] => []
  | [a] =>
    let n := a.toNat*16
    [base64Char (n/64),base64Char n,'=','=']
  | [a,b] =>
    let n := (a.toNat*256+b.toNat)*4
    [base64Char (n/4096),base64Char (n/64),base64Char n,'=']
  | a :: b :: c :: rest =>
    let n := (a.toNat*256+b.toNat)*256+c.toNat
    base64Char (n/262144) :: base64Char (n/4096) :: base64Char (n/64) :: base64Char n ::
      base64Encode rest

def putBytes (_cur : List UInt8) : Json → Except String (List UInt8)
  | .str s => match base64Decode s with
    | some bs => .ok bs
    | none => .error "illegal base64 data"
  | .null => .ok []
  | _ => .error "json: cannot unmarshal into Go value of type []uint8"

/-! Decoding into a struct: the members of an object are stored in order, each into the field
its name matches. -/

/-- A field of a struct: its name, and how a member is stored into it. -/
abbrev StructField (α : Type) := String × (α → Json → Except String α)

section fields
variable {α : Type}

def stringField (name : String) (get : α → String) (set : α → String → α) : StructField α :=
  (name,fun cur v => do return set cur (← putString (get cur) v))

def boolField (name : String) (get : α → Bool) (set : α → Bool → α) : StructField α :=
  (name,fun cur v => do return set cur (← putBool (get cur) v))

def intField (name : String) (get : α → ℤ) (set : α → ℤ → α) : StructField α :=
  (name,fun cur v => do return set cur (← putInt (get cur) v))

def bytesField (name : String) (get : α → List UInt8) (set : α → List UInt8 → α) : StructField α :=
  (name,fun cur v => do return set cur (← putBytes (get cur) v))

/-- Store one member; a name no field matches is skipped. -/
def storeMember (fields : List (StructField α)) (cur : α) (m : String × Json) : Except String α :=
  match fields.find? (fun f => foldEq m.1 f.1) with
  | some f => f.2 cur m.2
  | none => .ok cur

/-- Decode a document over a struct. -/
def storeInto (fields : List (StructField α)) (cur : α) : Json → Except String α
  | .obj members => members.foldlM (storeMember fields) cur
  | .null => .ok cur
  | _ => .error "json: cannot unmarshal into Go struct"

variable {fields : List (StructField α)} {P : α → Prop}

lemma storeMember_invariant
    (hf : ∀ f ∈ fields, ∀ cur v next, P cur → f.2 cur v = .ok next → P next)
    {cur next : α} {m : String × Json} (hc : P cur) (h : storeMember fields cur m = .ok next) :
    P next := by
  unfold storeMember at h
  cases hm : fields.find? (fun f => foldEq m.1 f.1) with
  | none =>
    rw [hm] at h
    cases h
    exact hc
  | some f =>
    rw [hm] at h
    exact hf f (List.mem_of_find?_eq_some hm) cur m.2 next hc h

/-- What holds of the zero value and survives every field holds of whatever is decoded. -/
theorem storeInto_invariant
    (hf : ∀ f ∈ fields, ∀ cur v next, P cur → f.2 cur v = .ok next → P next)
    {cur next : α} {j : Json} (hc : P cur) (h : storeInto fields cur j = .ok next) : P next := by
  cases j with
  | obj members =>
    simp only [storeInto] at h
    induction members generalizing cur with
    | nil => cases h; exact hc
    | cons m members ih =>
      rw [List.foldlM_cons] at h
      obtain ⟨x,hx,hr⟩ := bind_ok h
      exact ih (storeMember_invariant hf hc hx) hr
  | null => cases h; exact hc
  | bool b => cases h
  | num n => cases h
  | str s => cases h
  | arr xs => cases h

/-- Decoding one field alone gives what decoding the whole struct gives there. -/
theorem storeInto_first {β : Type} {π : α → β} {f : StructField α} {g : StructField β}
    (hn : f.1 = g.1) (hfg : ∀ cur v next, f.2 cur v = .ok next → g.2 (π cur) v = .ok (π next))
    (hrest : ∀ r ∈ fields, ∀ cur v next, r.2 cur v = .ok next → π next = π cur)
    {cur next : α} {j : Json} (h : storeInto (f :: fields) cur j = .ok next) :
    storeInto [g] (π cur) j = .ok (π next) := by
  have hstep : ∀ cur next m, storeMember (f :: fields) cur m = .ok next →
      storeMember [g] (π cur) m = .ok (π next) := by
    intro cur next m h
    unfold storeMember at h ⊢
    rw [List.find?_cons] at h ⊢
    rw [← hn]
    cases he : foldEq m.1 f.1 with
    | true =>
      rw [he] at h
      exact hfg _ _ _ h
    | false =>
      rw [he] at h
      change storeMember fields cur m = .ok next at h
      change Except.ok (π cur) = Except.ok (π next)
      rw [storeMember_invariant (P := fun x => π x = π cur)
        (fun r hr c v n hc hs => (hrest r hr c v n hs).trans hc) rfl h]
  cases j with
  | obj members =>
    simp only [storeInto] at h ⊢
    induction members generalizing cur with
    | nil => cases h; rfl
    | cons m members ih =>
      rw [List.foldlM_cons] at h ⊢
      obtain ⟨x,hx,hr⟩ := bind_ok h
      rw [hstep cur x m hx]
      exact ih hr
  | null => cases h; rfl
  | bool b => cases h
  | num n => cases h
  | str s => cases h
  | arr xs => cases h

end fields
end Json
end Manvi.Encoding
