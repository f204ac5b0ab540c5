import Manvi.Computer.Money
import Manvi.Encoding.JsonRoundTrip
import Manvi.Encoding.Utf8
import Manvi.Workflow.Spec

/-! Values as the texts that a run types and reads. -/
namespace Manvi.Workflow
open Manvi.Encoding

/-- A number in decimal, with a sign when it is negative. -/
def formatInt (n : ℤ) : String :=
  String.ofList ((if n < 0 then ['-'] else []) ++ (Json.natDigits n.natAbs).map Json.digitChar)

/-- The text that is typed for a value. -/
def Value.display (v : Value) : String :=
  match v.type with
  | .string => v.text
  | .boolean => if v.boolean then "true" else "false"
  | .money => formatInt v.integer ++ " " ++ v.currency
  | _ => formatInt v.integer

end Manvi.Workflow

namespace Manvi.Computer
open Manvi.Encoding Manvi.Workflow

/-- A truth value, as strconv.ParseBool reads it. -/
def parseBool (s : Bytes) : Option Bool :=
  if [ascii "1",ascii "t",ascii "T",ascii "TRUE",ascii "true",ascii "True"].contains s then
    some true
  else if [ascii "0",ascii "f",ascii "F",ascii "FALSE",ascii "false",ascii "False"].contains s then
    some false
  else none

/-- A value that was read, when it is valid. -/
def validated (v : Value) : Except String Value := v.validate.map (fun _ => v)

def parseValue (text : String) (typ : ValueType) (currency : String) : Except String Value :=
  let s := trimSpace (utf8 text)
  let v : Value := ⟨typ,"",0,false,currency⟩
  match typ with
  | .string => validated { v with text := text }
  | .integer => match parseInt64 s with
    | none => .error "observed integer is invalid"
    | some n => validated { v with integer := n }
  | .boolean => match parseBool s with
    | none => .error "observed boolean is invalid"
    | some b => validated { v with boolean := b }
  | .money => match parseMinorUnits s (utf8 currency) with
    | .error e => .error e
    | .ok n => validated { v with integer := n.toInt }
  | t => .error s!"unsupported output type {repr t.name}"

/-- The value reads back from its own text as itself. -/
def ReadsBack (v : Value) : Prop := parseValue v.display v.type v.currency = .ok v

instance (v : Value) : Decidable (ReadsBack v) := inferInstanceAs (Decidable (_ = _))

section bytes
variable {v : Value} {b : Bytes}

/-- The bytes of a number in decimal. -/
def digitBytes (n : ℕ) : Bytes := (Json.natDigits n).map (fun d => UInt8.ofNat (48+d.val))

def intBytes (n : ℤ) : Bytes := (if n < 0 then [45] else []) ++ digitBytes n.natAbs

@[simp] lemma utf8_append (s t : String) : utf8 (s ++ t) = utf8 s ++ utf8 t := by
  simp [utf8,utf8Bytes]

lemma utf8EncodeChar_digitChar (d : Fin 10) :
    String.utf8EncodeChar (Json.digitChar d) = [UInt8.ofNat (48+d.val)] := by
  revert d
  decide

lemma utf8_formatInt (n : ℤ) : utf8 (formatInt n) = intBytes n := by
  have hdigits : ∀ ds : List (Fin 10), (ds.map Json.digitChar).flatMap String.utf8EncodeChar =
      ds.map (fun d => UInt8.ofNat (48+d.val)) := by
    intro ds
    induction ds with
    | nil => rfl
    | cons d ds ih =>
      rw [List.map_cons,List.flatMap_cons,ih,utf8EncodeChar_digitChar,List.map_cons,
        List.singleton_append]
  rw [utf8,utf8Bytes,formatInt,String.toList_ofList,List.flatMap_append,hdigits]
  unfold intBytes
  split_ifs with hn
  · rfl
  · rfl

lemma digits_digitBytes (n : ℕ) : digits (digitBytes n) = true := by
  obtain ⟨d,ds,he,-⟩ := Json.natDigits_lead n
  have hdigit : ∀ d : Fin 10, isDigit (UInt8.ofNat (48+d.val)) = true := by decide
  rw [digits_iff,digitBytes]
  refine ⟨by simp [he],?_⟩
  intro b hb
  obtain ⟨d,-,rfl⟩ := List.mem_map.mp hb
  exact hdigit d

lemma decimalValue_digitBytes (n : ℕ) : decimalValue (digitBytes n) = n := by
  have hvalue : ∀ d : Fin 10, (UInt8.ofNat (48+d.val)).toNat-48 = d.val := by decide
  have hfold : ∀ (ds : List (Fin 10)) (m : ℕ), (ds.map (fun d => UInt8.ofNat (48+d.val))).foldl
      (fun n b => n*10+(b.toNat-48)) m = ds.foldl (fun n d => 10*n+d.val) m := by
    intro ds
    induction ds with
    | nil => intro m; rfl
    | cons d ds ih =>
      intro m
      rw [List.map_cons,List.foldl_cons,List.foldl_cons,ih,hvalue,Nat.mul_comm]
  rw [decimalValue,digitBytes,hfold]
  exact Json.digitsValue_natDigits n

/-- The text of a number is an amount of that many whole units. -/
lemma number_intBytes (currency : Bytes) (n : ℤ) :
    Number currency (intBytes n) (decide (n < 0)) n.natAbs 0 := by
  have hwhole : Whole (digitBytes n.natAbs) n.natAbs := by
    have h := Whole.plain (digits_digitBytes n.natAbs)
    rwa [decimalValue_digitBytes] at h
  have hbody := Unsigned.mk hwhole .none
  rw [List.append_nil] at hbody
  unfold intBytes
  by_cases hn : n < 0
  · rw [if_pos hn,decide_eq_true hn]
    exact .mk .minus hbody
  · rw [if_neg hn,decide_eq_false hn]
    exact .mk .plain hbody

lemma blank_nil : Blank [] := ⟨[],by simp,rfl⟩

lemma trimSpace_intBytes (n : ℤ) : trimSpace (intBytes n) = intBytes n := by
  obtain ⟨⟨d,t,hd,hdt⟩,u,e,he,hue⟩ := (number_intBytes [] n).solid
  have h := trimSpace_of_solid blank_nil blank_nil hdt hue hd he
  simpa using h

lemma parseInt64_intBytes {n : ℤ} (hlow : -2^63 ≤ n) (hhigh : n < 2^63) :
    parseInt64 (intBytes n) = some n := by
  obtain ⟨⟨d,t,hd,hdt⟩,-⟩ := ends_of_digits (digits_digitBytes n.natAbs)
  obtain ⟨hne,hall⟩ := digits_iff.mp (digits_digitBytes n.natAbs)
  have hvalue : (digitBytes n.natAbs).foldl (fun n b => n*10+(b.toNat-48)) 0 = n.natAbs :=
    decimalValue_digitBytes _
  have hok : ¬ (digitBytes n.natAbs = [] ∨ ¬ (digitBytes n.natAbs).all isDigit = true) := by
    rw [not_or,not_not]
    exact ⟨hne,List.all_eq_true.mpr hall⟩
  unfold intBytes parseInt64
  by_cases hn : n < 0
  · rw [if_pos hn]
    simp only [List.singleton_append,List.head?_cons,List.tail_cons,or_true,if_true,if_neg hok,
      hvalue]
    rw [if_pos (by omega)]
    congr 1
    omega
  · have hminus : (digitBytes n.natAbs).head? ≠ some 45 := by
      rw [hdt,List.head?_cons]
      rintro ⟨⟩
      cases hd
    have hplus : (digitBytes n.natAbs).head? ≠ some 43 := by
      rw [hdt,List.head?_cons]
      rintro ⟨⟩
      cases hd
    rw [if_neg hn]
    simp only [List.nil_append,hminus,hplus,or_self,if_false,if_neg hok,hvalue]
    rw [if_pos (by omega)]
    congr 1
    omega

/-- A currency code ends with a byte that is no white space. -/
lemma solid_currency {currency : String} (h : currencyPattern currency = true) :
    ∃ u d, solid d = true ∧ utf8 currency = u ++ [d] := by
  simp only [currencyPattern,Bool.and_eq_true,decide_eq_true_eq,List.all_eq_true] at h
  obtain ⟨hlen,hall⟩ := h
  obtain ⟨a,b,c,he⟩ := List.length_eq_three.mp hlen
  have hc := hall c (by simp [he])
  have hlast : ∃ d, solid d = true ∧ String.utf8EncodeChar c = [d] := by
    have hlow : 65 ≤ c.toNat := hc.1
    have hhigh : c.toNat ≤ 90 := hc.2
    have hofNat : c = Char.ofNat c.toNat := (Char.ofNat_toNat c).symm
    generalize c.toNat = m at *
    subst hofNat
    interval_cases m <;> exact ⟨_,by decide,rfl⟩
  obtain ⟨d,hd,hutf8⟩ := hlast
  refine ⟨String.utf8EncodeChar a ++ String.utf8EncodeChar b,d,hd,?_⟩
  rw [utf8,utf8Bytes,he]
  simp [hutf8]

lemma utf8_money {v : Value} (hm : v.type = .money) :
    utf8 v.display = intBytes v.integer ++ 32 :: utf8 v.currency := by
  have hspace : utf8 " " = [32] := by decide
  rw [Value.display,hm]
  dsimp only
  rw [utf8_append,utf8_append,utf8_formatInt,hspace,List.append_assoc,List.singleton_append]

end bytes

section back
variable {v : Value}

lemma readsBack_string (hvalid : v.validate = .ok ()) (ht : v.type = .string) : ReadsBack v := by
  obtain ⟨type,text,integer,boolean,currency⟩ := v
  cases ht
  have hkeep := hvalid
  unfold Value.validate at hvalid
  dsimp only at hvalid
  split_ifs at hvalid with hbad
  simp only [not_or,not_not,Bool.not_eq_true] at hbad
  obtain ⟨-,rfl,rfl,rfl⟩ := hbad
  unfold ReadsBack parseValue validated Value.display
  dsimp only
  rw [hkeep]
  rfl

lemma readsBack_boolean (hvalid : v.validate = .ok ()) (ht : v.type = .boolean) : ReadsBack v := by
  obtain ⟨type,text,integer,boolean,currency⟩ := v
  cases ht
  unfold Value.validate at hvalid
  dsimp only at hvalid
  split_ifs at hvalid with hbad
  simp only [not_or,not_not] at hbad
  obtain ⟨rfl,rfl,rfl⟩ := hbad
  cases boolean with
  | false => decide
  | true => decide

lemma readsBack_integer (hvalid : v.validate = .ok ()) (hlow : -2^63 ≤ v.integer)
    (hhigh : v.integer < 2^63)
    (ht : v.type = .integer) : ReadsBack v := by
  obtain ⟨type,text,integer,boolean,currency⟩ := v
  cases ht
  have hkeep := hvalid
  unfold Value.validate at hvalid
  dsimp only at hvalid
  split_ifs at hvalid with hbad hcurrency
  simp only [not_or,not_not,Bool.not_eq_true] at hbad hcurrency
  obtain ⟨rfl,rfl⟩ := hbad
  subst hcurrency
  unfold ReadsBack parseValue validated Value.display
  dsimp only
  rw [utf8_formatInt,trimSpace_intBytes,parseInt64_intBytes hlow hhigh]
  dsimp only
  rw [hkeep]
  rfl

lemma money_fields (hvalid : v.validate = .ok ()) (ht : v.type = .money) :
    currencyPattern v.currency = true ∧ v = ⟨.money,"",v.integer,false,v.currency⟩ := by
  obtain ⟨type,text,integer,boolean,currency⟩ := v
  cases ht
  unfold Value.validate at hvalid
  dsimp only at hvalid
  split_ifs at hvalid with hbad hcurrency
  simp only [not_or,not_not,Bool.not_eq_true] at hbad
  obtain ⟨rfl,rfl⟩ := hbad
  exact ⟨by simpa using hcurrency,rfl⟩

lemma validated_money {currency : String} (h : currencyPattern currency = true) (n : ℤ) :
    validated ⟨.money,"",n,false,currency⟩ = .ok ⟨.money,"",n,false,currency⟩ := by
  have hvalid : (⟨.money,"",n,false,currency⟩ : Value).validate = .ok
    () := by simp [Value.validate,h]
  rw [validated,hvalid]
  rfl

/-- Money that is typed is an amount of as many whole units as it has minor ones. -/
lemma amount_display (hcurrency : currencyPattern v.currency = true) (ht : v.type = .money) :
    Amount (utf8 v.currency) (trimSpace (utf8 v.display))
    (decide (v.integer < 0)) v.integer.natAbs 0 := by
  obtain ⟨u,d,hd,hu⟩ := solid_currency hcurrency
  have hne : utf8 v.currency ≠ [] := by
    rw [hu]
    simp
  have htext : trimSpace (utf8 v.display) = intBytes v.integer ++ 32 :: utf8 v.currency := by
    obtain ⟨⟨e,t,he,het⟩,-⟩ := (number_intBytes [] v.integer).solid
    have hfirst : intBytes v.integer ++
      32 :: utf8 v.currency = e :: (t ++ 32 :: utf8 v.currency) := by
      rw [het,List.cons_append]
    have hlast : intBytes v.integer ++ 32 :: utf8 v.currency = (intBytes v.integer ++ 32 :: u) ++
      [d] := by
      rw [hu]
      simp
    have h := trimSpace_of_solid blank_nil blank_nil hfirst hlast he hd
    rw [utf8_money ht]
    simpa using h
  have h := Amount.before (number_intBytes (utf8 v.currency) v.integer) hne blank_nil blank_nil
  rw [htext]
  simpa using h

/-- Money is typed in minor units and read in major ones. -/
lemma readsBack_money (hvalid : v.validate = .ok ()) (ht : v.type = .money) :
    ReadsBack v ↔ v.integer = 0 := by
  obtain ⟨hcurrency,hv⟩ := money_fields hvalid ht
  have hparse : parseValue v.display v.type v.currency =
      match parseMinorUnits (trimSpace (utf8 v.display)) (utf8 v.currency) with
      | .error e => .error e
      | .ok n => validated ⟨.money,"",n.toInt,false,v.currency⟩ := by
    unfold parseValue
    rw [ht]
  unfold ReadsBack
  rw [hparse]
  obtain ⟨-,n,hn,he⟩ | ⟨hout,herror⟩ := (amount_display hcurrency ht).parse
  · have hint : n.toInt = 100*v.integer := by
      rw [he,signed]
      by_cases hneg : v.integer < 0
      · simp only [hneg,decide_true,if_true]
        omega
      · simp only [hneg,decide_false,Bool.false_eq_true,if_false]
        omega
    rw [hn]
    dsimp only
    rw [validated_money hcurrency]
    constructor
    · intro h
      have hsame := congrArg Value.integer (Except.ok.inj h)
      have hsame : n.toInt = v.integer := hsame
      omega
    · intro hzero
      rw [hv,hint,hzero]
      rfl
  · rw [herror]
    constructor
    · intro h
      cases h
    · intro hzero
      rw [hzero] at hout
      simp at hout

end back

/-- A valid value reads back from the text that is typed for it just when it is not money, or no
money. -/
theorem readsBack_iff {v : Value} (hvalid : v.validate = .ok ()) (hlow : -2^63 ≤ v.integer)
    (hhigh : v.integer < 2^63) :
    ReadsBack v ↔ (v.type = .money → v.integer = 0) := by
  cases ht : v.type with
  | string => exact iff_of_true (readsBack_string hvalid ht) (fun h => (by cases h))
  | integer => exact iff_of_true (readsBack_integer hvalid hlow hhigh ht) (fun h => (by cases h))
  | boolean => exact iff_of_true (readsBack_boolean hvalid ht) (fun h => (by cases h))
  | money =>
    rw [readsBack_money hvalid ht]
    exact ⟨fun h _ => h,fun h => h rfl⟩
  | absent =>
    rw [Value.validate,ht] at hvalid
    cases hvalid
  | other name =>
    rw [Value.validate,ht] at hvalid
    cases hvalid

/-- The least number reads back. -/
theorem readsBack_least : (⟨.integer,"",-2^63,false,""⟩ : Value).validate = .ok () ∧
    ReadsBack ⟨.integer,"",-2^63,false,""⟩ :=
  ⟨rfl,(readsBack_iff rfl (le_refl _) (by decide)).mpr (fun h => (by cases h))⟩

/-- Twelve dollars fifty are typed as 1250 dollars. -/
theorem money_reads_back_hundredfold : (⟨.money,"",1250,false,"USD"⟩ : Value).validate = .ok () ∧
    (⟨.money,"",1250,false,"USD"⟩ : Value).display = "1250 USD" ∧
    parseValue "1250 USD" .money "USD" = .ok ⟨.money,"",125000,false,"USD"⟩ ∧
    ¬ ReadsBack ⟨.money,"",1250,false,"USD"⟩ := by
  decide +kernel

end Manvi.Computer
