import Manvi.Encoding.Space

/-! Amounts of money as texts: which texts the runner takes for one, and the number it reads. -/
namespace Manvi.Computer
open Manvi.Encoding

/-- The greatest signed number of 64 bits. -/
def maxInt64 : UInt64 := 9223372036854775807

/-- The bytes of USD. -/
def usd : Bytes := [85,83,68]

/-- A text of digits alone. -/
def digits (s : Bytes) : Bool := s ≠ [] && s.all isDigit

/-- The number that digits write. -/
def decimalValue (s : Bytes) : ℕ := s.foldl (fun n b => n*10+(b.toNat-48)) 0

/-- An unsigned decimal number within 64 bits, as strconv.ParseUint reads it. -/
def parseUint (s : Bytes) : Option UInt64 :=
  if digits s ∧ decimalValue s < 2^64 then some (UInt64.ofNat (decimalValue s)) else none

def trimPrefixByte (s : Bytes) (c : UInt8) : Bytes := if s.head? = some c then s.tail else s

/-- A text without the currency that ends it. -/
def cutCurrency (s currency : Bytes) : Bytes :=
  if currency ≠ [] ∧ 32 :: currency <:+ s then trimSpace (s.take (s.length-(currency.length+1)))
    else s

/-- A text without its sign, before or after the dollar sign, and whether it had one. -/
def cutSign (s currency : Bytes) : Except String (Bool × Bytes) :=
  let negative : Bool := s.head? = some 45
  let s := trimPrefixByte s 45
  if s.head? = some 36 ∧ currency ≠ usd then .error "dollar symbol requires USD"
  else
    let s := trimPrefixByte s 36
    if !negative ∧ s.head? = some 45 then .ok (true,trimPrefixByte s 45) else .ok (negative,s)

/-- A group of digits that cannot stand at its place among some groups. -/
def badGroup (n i : ℕ) (g : Bytes) : Bool :=
  !digits g || (1 < n && ((i = 0 && 3 < g.length) || (0 < i && g.length ≠ 3)))

/-- The minor units of a whole and a fractional part, within signed 64 bits. -/
def minorUnits (negative : Bool) (whole fraction : UInt64) : Except String Int64 :=
  let limit := if negative then maxInt64+1 else maxInt64
  if whole > limit/100 ∨ whole*100 > limit-fraction then .error "money outside bounds"
  else
    let minor := whole*100+fraction
    if negative then (if minor = maxInt64+1 then .ok Int64.minValue else .ok (-minor.toInt64))
    else .ok minor.toInt64

/-- The number of two digits. -/
def cents : Bytes → UInt64
  | [a,b] => (a-48).toUInt64*10+(b-48).toUInt64
  | _ => 0

def parseUnsigned (negative : Bool) (s : Bytes) : Except String Int64 :=
  match s.splitOn 46 with
  | [] => .error "invalid money"
  | part :: rest =>
    if 1 < rest.length ∨ part = [] then .error "invalid money"
    else if (part.splitOn 44).zipIdx.any (fun e => badGroup (part.splitOn 44).length e.2 e.1) then
      .error "invalid grouped money"
    else match parseUint (part.splitOn 44).flatten,rest with
      | none,_ => .error "money outside bounds"
      | some whole,[] => minorUnits negative whole 0
      | some whole,f :: _ =>
        if f.length ≠ 2 ∨ !digits f then .error "money requires two fractional digits"
        else minorUnits negative whole (cents f)

def parseMinorUnits (s currency : Bytes) : Except String Int64 := do
  let (negative,body) ← cutSign (cutCurrency s currency) currency
  parseUnsigned negative body

/-! The grammar of amounts. -/

/-- A sign and a dollar sign, the latter in USD only. -/
inductive Sign (currency : Bytes) : Bytes → Bool → Prop
  | plain : Sign currency [] false
  | minus : Sign currency [45] true
  | dollar (h : currency = usd) : Sign currency [36] false
  | minusDollar (h : currency = usd) : Sign currency [45,36] true
  | dollarMinus (h : currency = usd) : Sign currency [36,45] true

/-- Digits, plain or in groups of three after a first of at most three, with the number they
write. -/
inductive Whole : Bytes → ℕ → Prop
  | plain {s : Bytes} (h : digits s = true) : Whole s (decimalValue s)
  | grouped {first : Bytes} {rest : List Bytes} (h : digits first = true) (short : first.length ≤ 3)
      (three : ∀ g ∈ rest, digits g = true ∧ g.length = 3) :
      Whole (first ++ rest.flatMap (44 :: ·)) (decimalValue (first ++ rest.flatten))

/-- Nothing, or a point and two digits. -/
inductive Fraction : Bytes → ℕ → Prop
  | none : Fraction [] 0
  | two {a b : UInt8} (ha : isDigit a = true) (hb : isDigit b = true) :
      Fraction [46,a,b] (decimalValue [a,b])

/-- A whole part and hundredths. -/
inductive Unsigned : Bytes → ℕ → ℕ → Prop
  | mk {whole fraction : Bytes} {w f : ℕ} (hw : Whole whole w) (hf : Fraction fraction f) :
      Unsigned (whole ++ fraction) w f

/-- A number with its sign, whole part and hundredths. -/
inductive Number (currency : Bytes) : Bytes → Bool → ℕ → ℕ → Prop
  | mk {sign body : Bytes} {negative : Bool} {w f : ℕ} (hs : Sign currency sign negative)
      (hb : Unsigned body w f) :
      Number currency (sign ++ body) negative w f

/-- White space. -/
def Blank (s : Bytes) : Prop := ∃ words : List Bytes, (∀ w ∈ words, w ∈ spaces) ∧ s = words.flatten

/-- An amount: a number alone, or one between white space before its currency. -/
inductive Amount (currency : Bytes) : Bytes → Bool → ℕ → ℕ → Prop
  | alone {s : Bytes} {negative : Bool} {w f : ℕ} (h : Number currency s negative w f) :
      Amount currency s negative w f
  | before {a s b : Bytes} {negative : Bool} {w f : ℕ} (h : Number currency s negative w f)
      (hc : currency ≠ [])
      (ha : Blank a) (hb : Blank b) : Amount currency (a ++ s ++ b ++ 32 :: currency) negative w f

/-- The text writes the decimal number. -/
def Writes (currency s : Bytes) (q : ℚ) : Prop := ∃ negative w f, Amount currency s negative w f ∧
  q = if negative then -((w : ℚ)+f/100) else (w : ℚ)+f/100

/-- The greatest amount of a sign. -/
def limit (negative : Bool) : ℕ := if negative then 2^63 else 2^63-1

/-- The minor units with their sign. -/
def signed (negative : Bool) (minor : ℕ) : ℤ := if negative then -(minor : ℤ) else minor

section units
variable {negative : Bool} {whole fraction minor lim : UInt64} {n : Int64}

lemma toNat_times (whole : UInt64) : (whole*100).toNat = whole.toNat*100 % 2^64 := by
  rw [UInt64.toNat_mul]
  rfl

/-- The check of the bounds is exact, though made in unsigned numbers. -/
lemma within_iff (hl : 100 ≤ lim.toNat) (hl' : lim.toNat ≤ 2^63) (hf : fraction.toNat < 100) :
    ¬ (whole > lim/100 ∨ whole*100 > lim-fraction) ↔
    100*whole.toNat+fraction.toNat ≤ lim.toNat := by
  have hdiv : (lim/100).toNat = lim.toNat/100 := by
    rw [UInt64.toNat_div]
    rfl
  have hsub : (lim-fraction).toNat = lim.toNat-fraction.toNat := by
    rw [UInt64.toNat_sub_of_le]
    rw [UInt64.le_iff_toNat_le]
    omega
  rw [gt_iff_lt,gt_iff_lt,UInt64.lt_iff_toNat_lt,UInt64.lt_iff_toNat_lt,hdiv,hsub,toNat_times]
  omega

lemma toNat_minor (h : 100*whole.toNat+fraction.toNat ≤ 2^63) :
    (whole*100+fraction).toNat = 100*whole.toNat+fraction.toNat := by
  rw [UInt64.toNat_add,toNat_times]
  omega

lemma toInt64_eq_ofNat (minor : UInt64) : minor.toInt64 = Int64.ofNat minor.toNat := by
  rw [← UInt64.toInt64_ofNat',UInt64.ofNat_toNat]

lemma toInt_toInt64 (h : minor.toNat < 2^63) : minor.toInt64.toInt = minor.toNat := by
  rw [toInt64_eq_ofNat,← Int64.ofInt_eq_ofNat]
  exact Int64.toInt_ofInt_of_le (by omega) (by omega)

lemma toInt_neg_toInt64 (h : minor.toNat < 2^63) : (-minor.toInt64).toInt = -(minor.toNat : ℤ) := by
  rw [toInt64_eq_ofNat,Int64.neg_ofNat]
  exact Int64.toInt_ofInt_of_le (by omega) (by omega)

/-- Minor units within their bounds are exact, the least one included. -/
lemma minorUnits_eq (hf : fraction.toNat < 100) :
    (100*whole.toNat+fraction.toNat ≤ limit negative ∧ ∃ n,
      minorUnits negative whole fraction = .ok n ∧
      n.toInt = signed negative (100*whole.toNat+fraction.toNat)) ∨
    (limit negative < 100*whole.toNat+fraction.toNat ∧
      minorUnits negative whole fraction = .error "money outside bounds") := by
  have hlim : (if negative then maxInt64+1 else maxInt64).toNat = limit negative := by
    cases negative with
    | false => rfl
    | true => rfl
  have hsmall : 100 ≤ limit negative ∧ limit negative ≤ 2^63 := by
    cases negative with
    | false => decide
    | true => decide
  have hwithin : ¬ _ ↔ 100*whole.toNat+fraction.toNat ≤ (if negative then
    maxInt64+1 else maxInt64).toNat :=
    within_iff (by omega) (by omega) hf
  rw [hlim] at hwithin
  by_cases hle : 100*whole.toNat+fraction.toNat ≤ limit negative
  · refine .inl ⟨hle,?_⟩
    have hminor := @toNat_minor whole fraction (hle.trans hsmall.2)
    unfold minorUnits
    dsimp only
    rw [if_neg (hwithin.mpr hle)]
    cases negative with
    | false =>
      refine ⟨_,rfl,?_⟩
      have hlt : (whole*100+fraction).toNat < 2^63 := by
        have : 100*whole.toNat+fraction.toNat ≤ 2^63-1 := hle
        omega
      rw [toInt_toInt64 hlt,hminor]
      rfl
    | true =>
      rw [if_pos rfl]
      split_ifs with hmin
      · refine ⟨_,rfl,?_⟩
        rw [hmin] at hminor
        rw [← hminor]
        rfl
      · refine ⟨_,rfl,?_⟩
        have hlt : (whole*100+fraction).toNat < 2^63 := by
          have hne : (whole*100+fraction).toNat ≠ (maxInt64+1).toNat :=
            fun he => hmin (UInt64.toNat_inj.mp he)
          have hmax : (maxInt64+1).toNat = 2^63 := rfl
          have : 100*whole.toNat+fraction.toNat ≤ 2^63 := hle
          omega
        rw [toInt_neg_toInt64 hlt,hminor]
        rfl
  · refine .inr ⟨by omega,?_⟩
    unfold minorUnits
    dsimp only
    rw [if_pos (not_not.mp (mt hwithin.mp hle))]

end units

section whole
variable {s g first fraction : Bytes} {rest : List Bytes} {w f : ℕ} {b : UInt8}

lemma digits_iff : digits s = true ↔ s ≠ [] ∧ ∀ b ∈ s, isDigit b = true := by
  simp [digits]

lemma not_mem_of_digits (h : digits s = true) (hb : isDigit b = false) : b ∉ s := by
  intro hmem
  rw [(digits_iff.mp h).2 b hmem] at hb
  cases hb

/-- The groups that may stand together. -/
lemma groups_iff : (first :: rest).zipIdx.any (fun e => badGroup (first :: rest).length e.2 e.1) =
    false ↔
    digits first = true ∧ (rest ≠ [] → first.length ≤ 3) ∧ ∀ g ∈ rest, digits g = true ∧
    g.length = 3 := by
  have hhead : badGroup (first :: rest).length 0 first = false ↔ digits first = true ∧
    (rest ≠ [] → first.length ≤ 3) := by
    cases rest with
    | nil => simp [badGroup]
    | cons g rest => simp [badGroup]
  have hrest : (rest.zipIdx 1).any (fun e => badGroup (first :: rest).length e.2 e.1) = false ↔
      ∀ g ∈ rest, digits g = true ∧ g.length = 3 := by
    rw [List.any_eq_false]
    constructor
    · intro h g hg
      obtain ⟨i,hi⟩ := List.mem_iff_getElem?.mp hg
      have hbad := h (g,1+i) (List.mk_add_mem_zipIdx_iff_getElem?.mpr hi)
      have hlen : 0 < rest.length := List.length_pos_of_mem hg
      simp only [badGroup,List.length_cons] at hbad
      simp at hbad
      exact ⟨hbad.1,hbad.2 hlen⟩
    · rintro h ⟨g,i⟩ hmem
      obtain ⟨hle,hi⟩ := List.mk_mem_zipIdx_iff_le_and_getElem?_sub.mp hmem
      obtain ⟨hd,hl⟩ := h g (List.mem_of_getElem? hi)
      have hne : i ≠ 0 := by omega
      simp [badGroup,hd,hl,hne]
  rw [List.zipIdx_cons,List.any_cons,Bool.or_eq_false_iff,hhead,hrest,and_assoc]

lemma intercalate_eq (first : Bytes) (rest : List Bytes) :
    [44].intercalate (first :: rest) = first ++ rest.flatMap (44 :: ·) := by
  induction rest generalizing first with
  | nil => simp
  | cons g rest ih =>
    rw [List.intercalate_cons_cons,ih]
    simp

/-- A whole part is what its groups make of it. -/
lemma whole_iff : Whole s w ↔ s ≠ [] ∧
    (s.splitOn 44).zipIdx.any (fun e => badGroup (s.splitOn 44).length e.2 e.1) = false ∧
    w = decimalValue (s.splitOn 44).flatten := by
  constructor
  · intro h
    cases h with
    | plain h =>
      have hsplit : s.splitOn 44 = [s] := List.splitOn_eq_singleton (not_mem_of_digits h rfl)
      rw [hsplit]
      refine ⟨(digits_iff.mp h).1,?_,by simp⟩
      rw [groups_iff]
      exact ⟨h,by simp,by simp⟩
    | @grouped first rest h short three =>
      rw [← intercalate_eq]
      have hsplit : ([44].intercalate (first :: rest)).splitOn 44 = first :: rest := by
        refine List.splitOn_intercalate 44 ?_ (by simp)
        intro g hg
        obtain rfl | hg := List.mem_cons.mp hg
        · exact not_mem_of_digits h rfl
        · exact not_mem_of_digits (three g hg).1 rfl
      rw [hsplit]
      refine ⟨?_,groups_iff.mpr ⟨h,fun _ => short,three⟩,rfl⟩
      rw [intercalate_eq]
      simp [(digits_iff.mp h).1]
  · rintro ⟨hne,hgroups,rfl⟩
    obtain ⟨first,rest,hsplit⟩ := List.exists_cons_of_ne_nil (List.splitOn_ne_nil 44 s)
    have hs : s = first ++ rest.flatMap (44 :: ·) := by
      rw [← intercalate_eq,← hsplit,List.intercalate_splitOn]
    rw [hsplit] at hgroups ⊢
    obtain ⟨hfirst,hshort,hthree⟩ := groups_iff.mp hgroups
    rw [hs]
    by_cases hrest : rest = []
    · subst hrest
      simpa using Whole.plain hfirst
    · exact .grouped hfirst (hshort hrest) hthree

lemma not_mem_of_whole (h : Whole s w) (hb : isDigit b = false) (hne : b ≠ 44) : b ∉ s := by
  cases h with
  | plain h => exact not_mem_of_digits h hb
  | grouped h short three =>
    simp only [List.mem_append,List.mem_flatMap,List.mem_cons,not_or,not_exists,not_and]
    exact ⟨not_mem_of_digits h hb,fun g hg => ⟨hne,not_mem_of_digits (three g hg).1 hb⟩⟩

end whole

section unsigned
variable {s part whole fraction : Bytes} {rest : List Bytes} {w f w' f' : ℕ} {a b : UInt8}
    {negative : Bool} {n : Int64}

lemma toNat_digit (h : isDigit b = true) : (b-48).toUInt64.toNat = b.toNat-48 ∧ b.toNat-48 ≤ 9 := by
  simp only [isDigit,UInt8.le_iff_toNat_le,decide_eq_true_eq] at h
  have hb : 48 ≤ b.toNat ∧ b.toNat ≤ 57 := h
  have hsub : (b-48).toNat = b.toNat-48 :=
    UInt8.toNat_sub_of_le b 48 (UInt8.le_iff_toNat_le.mpr hb.1)
  rw [UInt8.toNat_toUInt64,hsub]
  omega

lemma toNat_cents (ha : isDigit a = true) (hb : isDigit b = true) :
    (cents [a,b]).toNat = decimalValue [a,b] ∧ decimalValue [a,b] < 100 := by
  obtain ⟨ha,ha'⟩ := toNat_digit ha
  obtain ⟨hb,hb'⟩ := toNat_digit hb
  have hmul : ((a-48).toUInt64*10).toNat = (a-48).toUInt64.toNat*10 % 2^64 := by
    rw [UInt64.toNat_mul]
    rfl
  simp only [cents,UInt64.toNat_add,hmul,ha,hb,decimalValue,List.foldl_cons,List.foldl_nil]
  omega

/-- How a number without its sign is split at the point. -/
lemma Unsigned.split (h : Unsigned s w f) :
    ∃ part rest, s.splitOn 46 = part :: rest ∧ Whole part w ∧
    ((rest = [] ∧ f = 0) ∨ ∃ a b, isDigit a = true ∧ isDigit b = true ∧ rest = [[a,b]] ∧
      f = decimalValue [a,b]) := by
  obtain ⟨hw,hf⟩ := h
  have hpoint := not_mem_of_whole (b := 46) hw rfl (by decide)
  cases hf with
  | none =>
    rw [List.append_nil,List.splitOn_eq_singleton hpoint]
    exact ⟨_,_,rfl,hw,.inl ⟨rfl,rfl⟩⟩
  | @two a b ha hb =>
    have hlast : (46 : UInt8) ∉ [a,b] := by
      refine not_mem_of_digits ?_ rfl
      simp [digits,ha,hb]
    rw [List.splitOn_append_cons_self_of_not_mem hpoint,List.splitOn_eq_singleton hlast]
    exact ⟨_,_,rfl,hw,.inr ⟨a,b,ha,hb,rfl,rfl⟩⟩

/-- A text writes one number at most. -/
lemma Unsigned.unique (h : Unsigned s w f) (h' : Unsigned s w' f') : w = w' ∧ f = f' := by
  obtain ⟨part,rest,hsplit,hw,hf⟩ := h.split
  obtain ⟨part',rest',hsplit',hw',hf'⟩ := h'.split
  rw [hsplit] at hsplit'
  cases hsplit'
  refine ⟨(whole_iff.mp hw).2.2.trans (whole_iff.mp hw').2.2.symm,?_⟩
  obtain ⟨hrest,rfl⟩ | ⟨a,b,ha,hb,hrest,rfl⟩ := hf
  · obtain ⟨-,rfl⟩ | ⟨a',b',-,-,hrest',-⟩ := hf'
    · rfl
    · rw [hrest] at hrest'
      cases hrest'
  · obtain ⟨hrest',-⟩ | ⟨a',b',-,-,hrest',rfl⟩ := hf'
    · rw [hrest] at hrest'
      cases hrest'
    · rw [hrest] at hrest'
      cases hrest'
      rfl

lemma digits_flatten (hgroups : (part.splitOn 44).zipIdx.any
    (fun e => badGroup (part.splitOn 44).length e.2 e.1) = false) :
    digits (part.splitOn 44).flatten = true := by
  obtain ⟨first,rest,hsplit⟩ := List.exists_cons_of_ne_nil (List.splitOn_ne_nil 44 part)
  rw [hsplit] at hgroups ⊢
  obtain ⟨hfirst,-,hrest⟩ := groups_iff.mp hgroups
  obtain ⟨hne,hall⟩ := digits_iff.mp hfirst
  rw [digits_iff]
  refine ⟨by simp [hne],?_⟩
  intro b hb
  rw [List.flatten_cons,List.mem_append,List.mem_flatten] at hb
  obtain hb | ⟨g,hg,hb⟩ := hb
  · exact hall b hb
  · exact (digits_iff.mp (hrest g hg).1).2 b hb

lemma toNat_parseUint {u : UInt64} (h : parseUint s = some u) : u.toNat = decimalValue s := by
  unfold parseUint at h
  split_ifs at h with hok
  cases h
  exact UInt64.toNat_ofNat_of_lt' hok.2

lemma parseUint_eq_none (hd : digits s = true) (h : parseUint s = none) :
    2^64 ≤ decimalValue s := by
  unfold parseUint at h
  split_ifs at h with hok
  by_contra hlt
  exact hok ⟨hd,by omega⟩

/-- A whole part is read, or is outside every bound. -/
lemma Whole.parseUint (h : Whole part w) (negative : Bool) :
    (∃ u, Computer.parseUint (part.splitOn 44).flatten = some u ∧ u.toNat = w) ∨
    (Computer.parseUint (part.splitOn 44).flatten = none ∧ limit negative < w) := by
  obtain ⟨-,hgroups,rfl⟩ := whole_iff.mp h
  cases hu : Computer.parseUint (part.splitOn 44).flatten with
  | some u => exact .inl ⟨u,rfl,toNat_parseUint hu⟩
  | none =>
    have hlarge := parseUint_eq_none (digits_flatten hgroups) hu
    have hlimit : limit negative ≤ 2^63 := by
      cases negative with
      | false => decide
      | true => decide
    exact .inr ⟨rfl,by omega⟩

/-- A number without its sign is read exactly when it is within its bounds. -/
lemma Unsigned.parse (h : Unsigned s w f) (negative : Bool) :
    (100*w+f ≤ limit negative ∧ ∃ n, parseUnsigned negative s = .ok n ∧
      n.toInt = signed negative (100*w+f)) ∨
    (limit negative < 100*w+f ∧ parseUnsigned negative s = .error "money outside bounds") := by
  obtain ⟨part,rest,hsplit,hw,hf⟩ := h.split
  obtain ⟨hne,hgroups,-⟩ := whole_iff.mp hw
  have hshort : ¬ (1 < rest.length ∨ part = []) := by
    rintro (hlen | he)
    · obtain ⟨rfl,-⟩ | ⟨a,b,-,-,rfl,-⟩ := hf
      · cases hlen
      · simp at hlen
    · exact hne he
  unfold parseUnsigned
  rw [hsplit]
  dsimp only
  rw [if_neg hshort,if_neg (by simp [hgroups])]
  obtain ⟨u,hu,rfl⟩ | ⟨hu,hlarge⟩ := hw.parseUint negative
  · rw [hu]
    obtain ⟨rfl,rfl⟩ | ⟨a,b,ha,hb,rfl,rfl⟩ := hf
    · exact @minorUnits_eq negative u 0 (by decide)
    · dsimp only
      obtain ⟨hc,hlt⟩ := toNat_cents ha hb
      have hd : ¬ ([a,b].length ≠ 2 ∨ (!digits [a,b]) = true) := by simp [digits,ha,hb]
      rw [if_neg hd,← hc]
      exact minorUnits_eq (hc ▸ hlt)
  · rw [hu]
    refine .inr ⟨by omega,?_⟩
    cases rest with
    | nil => rfl
    | cons g rest => rfl

/-- What is read is a number without its sign. -/
lemma unsigned_of_parse (h : parseUnsigned negative s = .ok n) : ∃ w f, Unsigned s w f := by
  unfold parseUnsigned at h
  obtain ⟨part,rest,hsplit⟩ := List.exists_cons_of_ne_nil (List.splitOn_ne_nil 46 s)
  have hs : [46].intercalate (part :: rest) = s := by rw [← hsplit,List.intercalate_splitOn]
  rw [hsplit] at h
  dsimp only at h
  split_ifs at h with hshort hgroups
  obtain ⟨hlen,hne⟩ := not_or.mp hshort
  have hw : Whole part _ := whole_iff.mpr ⟨hne,by simpa using hgroups,rfl⟩
  rw [← hs]
  cases rest with
  | nil =>
    have hmk := Unsigned.mk hw .none
    rw [List.append_nil] at hmk
    exact ⟨_,_,by simpa using hmk⟩
  | cons g rest =>
    have hnil : rest = [] := by simpa using hlen
    subst hnil
    cases hu : Computer.parseUint (part.splitOn 44).flatten with
    | none =>
      rw [hu] at h
      cases h
    | some u =>
      rw [hu] at h
      dsimp only at h
      split_ifs at h with hbad
      simp only [ne_eq,Bool.not_eq_true',not_or,not_not,Bool.not_eq_false] at hbad
      obtain ⟨a,b,rfl⟩ := List.length_eq_two.mp hbad.1
      have hall := (digits_iff.mp hbad.2).2
      have hmk := Unsigned.mk hw (.two (hall a (by simp)) (hall b (by simp)))
      exact ⟨_,_,by simpa [List.intercalate_cons_cons] using hmk⟩

end unsigned

section trimmed
variable {words ws : List Bytes} {text : Bytes} {fuel : ℕ}

/-- What is trimmed off is words. -/
lemma trimWords_split (words : List Bytes) (fuel : ℕ) (text : Bytes) :
    ∃ ws : List Bytes, (∀ w ∈ ws, w ∈ words) ∧ text = ws.flatten ++ trimWords words fuel text := by
  induction fuel generalizing text with
  | zero => exact ⟨[],by simp,rfl⟩
  | succ fuel ih =>
    rw [trimWords]
    cases hfind : words.find? (fun w => w.isPrefixOf text) with
    | none => exact ⟨[],by simp,rfl⟩
    | some w =>
      have hpre : w <+: text := by
        have hp := List.find?_some hfind
        rwa [List.isPrefixOf_iff_prefix] at hp
      obtain ⟨rest,rfl⟩ := hpre
      obtain ⟨ws,hws,hrest⟩ := ih rest
      refine ⟨w :: ws,?_,?_⟩
      · intro w' hw'
        obtain rfl | hw' := List.mem_cons.mp hw'
        · exact List.mem_of_find?_eq_some hfind
        · exact hws w' hw'
      · dsimp only
        rw [List.drop_left,List.flatten_cons,List.append_assoc,← hrest]

/-- Words before a text that none opens are trimmed off, when no word begins another. -/
lemma trimWords_flatten (hapart : ∀ w ∈ words, ∀ w' ∈ words, w <+: w' → w = w')
    (hne : ∀ w ∈ words, w ≠ [])
    (hws : ∀ w ∈ ws, w ∈ words) (htext : ∀ w ∈ words, ¬ w <+: text)
    (hf : (ws.flatten ++ text).length ≤ fuel) :
    trimWords words fuel (ws.flatten ++ text) = text := by
  induction ws generalizing fuel with
  | nil => exact trimWords_of_none htext fuel
  | cons w ws ih =>
    have hw := hws w List.mem_cons_self
    have hpos := List.length_pos_iff.mpr (hne w hw)
    rw [List.flatten_cons,List.append_assoc] at hf ⊢
    rw [List.length_append] at hf
    cases fuel with
    | zero => omega
    | succ fuel =>
      have hopens : w <+: w ++ (ws.flatten ++ text) := List.prefix_append _ _
      have hfind : words.find? (fun v => v.isPrefixOf (w ++ (ws.flatten ++ text))) = some w := by
        have hsome : (words.find? (fun v => v.isPrefixOf (w ++ (ws.flatten ++ text)))).isSome =
          true :=
          List.find?_isSome.mpr ⟨w,hw,List.isPrefixOf_iff_prefix.mpr hopens⟩
        obtain ⟨v,hv⟩ := Option.isSome_iff_exists.mp hsome
        have hmem := List.mem_of_find?_eq_some hv
        have hvopens : v <+: w ++ (ws.flatten ++ text) := by
          have hp := List.find?_some hv
          rwa [List.isPrefixOf_iff_prefix] at hp
        rw [hv]
        obtain h | h := List.prefix_or_prefix_of_prefix hvopens hopens
        · rw [hapart v hmem w hw h]
        · rw [hapart w hw v hmem h]
      rw [trimWords,hfind]
      dsimp only
      rw [List.drop_left]
      exact ih (fun w' hw' => hws w' (List.mem_cons_of_mem _ hw')) (by omega)

end trimmed

section blank
variable {a b s : Bytes}

/-- A byte that neither begins nor ends white space. -/
def solid (b : UInt8) : Bool := spaces.all (fun w => w.head? ≠ some b && w.getLast? ≠ some b)

lemma not_opens_of_solid {words : List Bytes} (hwords : ∀ w ∈ words, ∃ v ∈ spaces, w = v ∨
    w = v.reverse) {b : UInt8}
    (hb : solid b = true) (t : Bytes) : ∀ w ∈ words, ¬ w <+: b :: t := by
  intro w hw hpre
  obtain ⟨v,hv,hwv⟩ := hwords w hw
  have hsolid := List.all_eq_true.mp hb v hv
  simp only [ne_eq,Bool.and_eq_true,decide_eq_true_eq] at hsolid
  have hne : v ≠ [] := (show ∀ w ∈ spaces, w ≠ [] from by decide) v hv
  have hhead : w.head? = some b := by
    cases w with
    | nil =>
      obtain h | h := hwv
      · exact (hne h.symm).elim
      · exact (hne (by simpa using h.symm)).elim
    | cons c w =>
      obtain ⟨r,hr⟩ := hpre
      cases hr
      rfl
  obtain rfl | rfl := hwv
  · exact hsolid.1 hhead
  · rw [List.head?_reverse] at hhead
    exact hsolid.2 hhead

/-- A text is its trimmed part between white space. -/
lemma trimSpace_between (s : Bytes) : ∃ a b, Blank a ∧ Blank b ∧ s = a ++ trimSpace s ++ b := by
  obtain ⟨ws,hws,hleft⟩ := trimWords_split spaces s.length s
  obtain ⟨vs,hvs,hright⟩ :=
    trimWords_split (spaces.map List.reverse) (trimLeftSpace s).length (trimLeftSpace s).reverse
  refine ⟨ws.flatten,vs.flatten.reverse,⟨ws,hws,rfl⟩,?_,?_⟩
  · refine ⟨vs.reverse.map List.reverse,?_,?_⟩
    · intro w hw
      obtain ⟨v,hv,rfl⟩ := List.mem_map.mp hw
      obtain ⟨u,hu,hue⟩ := List.mem_map.mp (hvs v (List.mem_reverse.mp hv))
      rw [← hue,List.reverse_reverse]
      exact hu
    · rw [List.reverse_flatten,List.map_reverse]
  · have hrest : trimLeftSpace s = trimSpace s ++ vs.flatten.reverse := by
      have := congrArg List.reverse hright
      rw [List.reverse_reverse,List.reverse_append] at this
      exact this
    rw [List.append_assoc,← hrest]
    exact hleft

/-- White space around a text with solid ends is cut off. -/
lemma trimSpace_of_solid (ha : Blank a) (hb : Blank b) {first last : UInt8} {t u : Bytes}
    (hs : s = first :: t)
    (hs' : s = u ++ [last]) (hfirst : solid first = true) (hlast : solid last = true) :
    trimSpace (a ++ s ++ b) = s := by
  obtain ⟨ws,hws,rfl⟩ := ha
  obtain ⟨vs,hvs,rfl⟩ := hb
  have hleft : trimLeftSpace (ws.flatten ++ s ++ vs.flatten) = s ++ vs.flatten := by
    unfold trimLeftSpace
    rw [List.append_assoc]
    refine trimWords_flatten (by decide) (by decide) hws ?_ le_rfl
    rw [hs]
    exact not_opens_of_solid (fun w hw => ⟨w,hw,.inl rfl⟩) hfirst _
  rw [trimSpace,hleft,trimRightSpace]
  have hreverse : (s ++ vs.flatten).reverse = (vs.reverse.map List.reverse).flatten ++
    s.reverse := by
    rw [List.reverse_append,List.reverse_flatten,List.map_reverse]
  rw [← List.length_reverse,hreverse]
  rw [trimWords_flatten (by decide) (by decide) ?_ ?_ le_rfl,List.reverse_reverse]
  · intro w hw
    obtain ⟨v,hv,rfl⟩ := List.mem_map.mp hw
    exact List.mem_map_of_mem (hvs v (List.mem_reverse.mp hv))
  · rw [hs',List.reverse_append]
    refine not_opens_of_solid ?_ hlast _
    intro w hw
    obtain ⟨v,hv,rfl⟩ := List.mem_map.mp hw
    exact ⟨v,hv,.inr rfl⟩

end blank

section amount
variable {s sign body currency : Bytes} {negative negative' : Bool} {w f w' f' : ℕ} {b : UInt8}
    {n : Int64} {q q' : ℚ}

lemma solid_of_isDigit (h : isDigit b = true) : solid b = true := by
  simp only [isDigit,UInt8.le_iff_toNat_le,decide_eq_true_eq] at h
  have hb : 48 ≤ b.toNat ∧ b.toNat ≤ 57 := h
  have hofNat : b = UInt8.ofNat b.toNat := by simp
  obtain ⟨hlow,hhigh⟩ := hb
  generalize b.toNat = m at *
  subst hofNat
  interval_cases m <;> rfl

lemma ends_of_digits (h : digits s = true) :
    (∃ d t, isDigit d = true ∧ s = d :: t) ∧ ∃ u d, isDigit d = true ∧ s = u ++ [d] := by
  obtain ⟨hne,hall⟩ := digits_iff.mp h
  obtain ⟨d,t,rfl⟩ := List.exists_cons_of_ne_nil hne
  refine ⟨⟨d,t,hall d List.mem_cons_self,rfl⟩,?_⟩
  refine ⟨(d :: t).dropLast,(d :: t).getLast hne,hall _ (List.getLast_mem hne),?_⟩
  rw [List.dropLast_append_getLast]

/-- A number without its sign begins and ends with a digit. -/
lemma Whole.ends (h : Whole s w) :
    (∃ d t, isDigit d = true ∧ s = d :: t) ∧ ∃ u d, isDigit d = true ∧ s = u ++ [d] := by
  cases h with
  | plain h => exact ends_of_digits h
  | @grouped first rest h short three =>
    obtain ⟨⟨d,t,hd,rfl⟩,hlast⟩ := ends_of_digits h
    refine ⟨⟨d,_,hd,rfl⟩,?_⟩
    obtain rfl | ⟨init,g,rfl⟩ := List.eq_nil_or_concat rest
    · simpa using hlast
    · obtain ⟨-,u,e,he,rfl⟩ := ends_of_digits (three g (by simp)).1
      exact ⟨d :: t ++ init.flatMap (44 :: ·) ++ 44 :: u,e,he,by simp⟩

lemma Unsigned.ends (h : Unsigned s w f) :
    (∃ d t, isDigit d = true ∧ s = d :: t) ∧ ∃ u d, isDigit d = true ∧ s = u ++ [d] := by
  obtain ⟨hw,hf⟩ := h
  obtain ⟨⟨d,t,hd,rfl⟩,hlast⟩ := hw.ends
  refine ⟨⟨d,_,hd,rfl⟩,?_⟩
  cases hf with
  | none => simpa using hlast
  | @two a b ha hb => exact ⟨d :: t ++ [46,a],b,hb,by simp⟩

lemma Unsigned.not_space (h : Unsigned s w f) : (32 : UInt8) ∉ s := by
  obtain ⟨hw,hf⟩ := h
  rw [List.mem_append,not_or]
  refine ⟨not_mem_of_whole hw rfl (by decide),?_⟩
  cases hf with
  | none => simp
  | @two a b ha hb =>
    have hd : digits [a,b] = true := by simp [digits,ha,hb]
    rw [List.mem_cons,not_or]
    exact ⟨by decide,not_mem_of_digits hd rfl⟩

lemma Sign.not_space (h : Sign currency sign negative) : (32 : UInt8) ∉ sign := by
  cases h <;> decide

lemma Number.not_space (h : Number currency s negative w f) : (32 : UInt8) ∉ s := by
  obtain ⟨hs,hb⟩ := h
  rw [List.mem_append,not_or]
  exact ⟨hs.not_space,hb.not_space⟩

/-- A number begins and ends with a byte that is no white space. -/
lemma Number.solid (h : Number currency s negative w f) :
    (∃ d t, Computer.solid d = true ∧ s = d :: t) ∧
    ∃ u d, Computer.solid d = true ∧ s = u ++ [d] := by
  obtain ⟨hs,hb⟩ := h
  obtain ⟨⟨d,t,hd,rfl⟩,u,e,he,hue⟩ := hb.ends
  constructor
  · cases hs with
    | plain => exact ⟨d,t,solid_of_isDigit hd,rfl⟩
    | minus => exact ⟨45,_,rfl,rfl⟩
    | dollar => exact ⟨36,_,rfl,rfl⟩
    | minusDollar => exact ⟨45,_,rfl,rfl⟩
    | dollarMinus => exact ⟨36,_,rfl,rfl⟩
  · rw [hue,← List.append_assoc]
    exact ⟨_,e,solid_of_isDigit he,rfl⟩

/-- The sign of a number is cut off. -/
lemma Sign.cut (hs : Sign currency sign negative) (hb : Unsigned body w f) :
    cutSign (sign ++ body) currency = .ok (negative,body) := by
  obtain ⟨⟨d,t,hd,rfl⟩,-⟩ := hb.ends
  have hminus : d ≠ 45 := by
    rintro rfl
    cases hd
  have hdollar : d ≠ 36 := by
    rintro rfl
    cases hd
  cases hs with
  | plain => simp [cutSign,trimPrefixByte,hminus,hdollar]
  | minus => simp [cutSign,trimPrefixByte,hdollar]
  | dollar h => simp [cutSign,trimPrefixByte,hminus,h]
  | minusDollar h => simp [cutSign,trimPrefixByte,h]
  | dollarMinus h => simp [cutSign,trimPrefixByte,h]

lemma head_trimPrefixByte (s : Bytes) (c : UInt8) :
    s = if s.head? = some c then c :: trimPrefixByte s c else trimPrefixByte s c := by
  unfold trimPrefixByte
  cases s with
  | nil => simp
  | cons d t =>
    by_cases hd : d = c
    · simp [hd]
    · simp [hd]

lemma sign_of_cut (h : cutSign s currency = .ok (negative,body)) :
    ∃ sign, Sign currency sign negative ∧ s = sign ++ body := by
  have hfirst := head_trimPrefixByte s 45
  have hsecond := head_trimPrefixByte (trimPrefixByte s 45) 36
  have hthird := head_trimPrefixByte (trimPrefixByte (trimPrefixByte s 45) 36) 45
  unfold cutSign at h
  dsimp only at h
  by_cases husd : (trimPrefixByte s 45).head? = some 36 ∧ currency ≠ usd
  · rw [if_pos husd] at h
    cases h
  rw [if_neg husd] at h
  by_cases hminus : s.head? = some 45
  · rw [if_pos hminus] at hfirst
    simp only [hminus,decide_true,Bool.not_true,Bool.false_eq_true,false_and,if_false] at h
    cases h
    by_cases hdollar : (trimPrefixByte s 45).head? = some 36
    · rw [if_pos hdollar] at hsecond
      have hcurrency : currency = usd := by
        by_contra hne
        exact husd ⟨hdollar,hne⟩
      refine ⟨_,.minusDollar hcurrency,?_⟩
      rw [hfirst,hsecond]
      simp [trimPrefixByte]
    · rw [if_neg hdollar] at hsecond
      refine ⟨_,.minus,?_⟩
      rw [← hsecond]
      exact hfirst
  · rw [if_neg hminus] at hfirst
    rw [← hfirst] at h hsecond hthird husd
    by_cases hdollar : s.head? = some 36
    · rw [if_pos hdollar] at hsecond
      have hcurrency : currency = usd := by
        by_contra hne
        exact husd ⟨hdollar,hne⟩
      by_cases hlate : (trimPrefixByte s 36).head? = some 45
      · rw [if_pos hlate] at hthird
        simp only [hminus,hlate,decide_false,Bool.not_false,and_self,if_true] at h
        cases h
        exact ⟨_,.dollarMinus hcurrency,hsecond.trans (congrArg _ hthird)⟩
      · simp only [hminus,hlate,decide_false,and_false,if_false] at h
        cases h
        exact ⟨_,.dollar hcurrency,hsecond⟩
    · rw [if_neg hdollar] at hsecond
      rw [← hsecond] at h
      simp only [hminus,decide_false,and_false,if_false] at h
      cases h
      exact ⟨_,.plain,rfl⟩

/-- The currency of an amount is cut off with the white space around the number, then its sign. -/
lemma Amount.cut (h : Amount currency s negative w f) :
    ∃ body, cutSign (cutCurrency s currency) currency = .ok (negative,body) ∧
    Unsigned body w f := by
  cases h with
  | alone h =>
    have hkeep : cutCurrency s currency = s := by
      unfold cutCurrency
      rw [if_neg]
      rintro ⟨-,hsuffix⟩
      exact h.not_space (hsuffix.subset List.mem_cons_self)
    rw [hkeep]
    obtain ⟨hs,hb⟩ := h
    exact ⟨_,hs.cut hb,hb⟩
  | @before a s b _ _ _ h hc ha hb =>
    obtain ⟨⟨d,t,hd,hdt⟩,u,e,he,hue⟩ := h.solid
    have hcut : cutCurrency (a ++ s ++ b ++ 32 :: currency) currency = s := by
      unfold cutCurrency
      rw [if_pos ⟨hc,List.suffix_append _ _⟩]
      have hlen : (a ++ s ++ b ++ 32 :: currency).length-(currency.length+1) = (a ++ s ++
        b).length := by
        rw [List.length_append,List.length_cons]
        omega
      rw [hlen,List.take_left]
      exact trimSpace_of_solid ha hb hdt hue hd he
    rw [hcut]
    obtain ⟨hs,hb⟩ := h
    exact ⟨_,hs.cut hb,hb⟩

lemma Amount.parse (h : Amount currency s negative w f) :
    (100*w+f ≤ limit negative ∧ ∃ n, parseMinorUnits s currency = .ok n ∧
      n.toInt = signed negative (100*w+f)) ∨
    (limit negative < 100*w+f ∧ parseMinorUnits s currency = .error "money outside bounds") := by
  obtain ⟨body,hcut,hb⟩ := h.cut
  have hparse : parseMinorUnits s currency = parseUnsigned negative body := by
    rw [parseMinorUnits,hcut]
    rfl
  rw [hparse]
  exact hb.parse negative

lemma amount_of_parse (h : parseMinorUnits s currency = .ok n) :
    ∃ negative w f, Amount currency s negative w f := by
  unfold parseMinorUnits at h
  cases hcut : cutSign (cutCurrency s currency) currency with
  | error e =>
    rw [hcut] at h
    cases h
  | ok r =>
    obtain ⟨negative,body⟩ := r
    rw [hcut] at h
    obtain ⟨w,f,hb⟩ := unsigned_of_parse h
    obtain ⟨sign,hs,hsign⟩ := sign_of_cut hcut
    have hnumber : Number currency (cutCurrency s currency) negative w f := by
      rw [hsign]
      exact .mk hs hb
    refine ⟨negative,w,f,?_⟩
    by_cases hsuffix : currency ≠ [] ∧ 32 :: currency <:+ s
    · obtain ⟨hc,t,rfl⟩ := hsuffix
      have htrim : cutCurrency (t ++ 32 :: currency) currency = trimSpace t := by
        unfold cutCurrency
        rw [if_pos ⟨hc,List.suffix_append _ _⟩]
        have hlen : (t ++ 32 :: currency).length-(currency.length+1) = t.length := by
          rw [List.length_append,List.length_cons]
          omega
        rw [hlen,List.take_left]
      rw [htrim] at hnumber
      obtain ⟨a,b,ha,hb',hsplit⟩ := trimSpace_between t
      rw [hsplit]
      exact .before hnumber hc ha hb'
    · rw [cutCurrency,if_neg hsuffix] at hnumber
      exact .alone hnumber

end amount

/-- Reading money is exact: what is returned is a hundred times the one number that the text writes,
and every text that writes a number whose minor units fit in 64 bits is read. -/
theorem parseMinorUnits_exact (s currency : Bytes) :
    (∀ n, parseMinorUnits s currency = .ok n → ∃ q, Writes currency s q ∧ (n.toInt : ℚ) = 100*q) ∧
    (∀ q q', Writes currency s q → Writes currency s q' → q = q') ∧
    ∀ q, Writes currency s q → -2^63 ≤ 100*q → 100*q < 2^63 → ∃ n,
    parseMinorUnits s currency = .ok n ∧ (n.toInt : ℚ) = 100*q := by
  have hminor : ∀ {negative : Bool} {w f : ℕ}, ((signed negative (100*w+f) : ℤ) : ℚ) =
      100*(if negative then -((w : ℚ)+f/100) else (w : ℚ)+f/100) := by
    intro negative w f
    cases negative with
    | false =>
      simp only [signed,Bool.false_eq_true,if_false]
      push_cast
      ring
    | true =>
      simp only [signed,if_true]
      push_cast
      ring
  refine ⟨?_,?_,?_⟩
  · intro n hn
    obtain ⟨negative,w,f,h⟩ := amount_of_parse hn
    refine ⟨_,⟨negative,w,f,h,rfl⟩,?_⟩
    obtain ⟨-,n',hn',he⟩ | ⟨-,herror⟩ := h.parse
    · rw [hn] at hn'
      cases hn'
      rw [he,hminor]
    · rw [hn] at herror
      cases herror
  · rintro q q' ⟨negative,w,f,h,rfl⟩ ⟨negative',w',f',h',rfl⟩
    obtain ⟨body,hcut,hb⟩ := h.cut
    obtain ⟨body',hcut',hb'⟩ := h'.cut
    rw [hcut] at hcut'
    cases hcut'
    obtain ⟨rfl,rfl⟩ := hb.unique hb'
    rfl
  · rintro q ⟨negative,w,f,h,rfl⟩ hlow hhigh
    rw [← hminor] at hlow hhigh ⊢
    obtain ⟨-,n,hn,he⟩ | ⟨hout,-⟩ := h.parse
    · exact ⟨n,hn,by rw [he]⟩
    · have hlow : -2^63 ≤ signed negative (100*w+f) := by exact_mod_cast hlow
      have hhigh : signed negative (100*w+f) < 2^63 := by exact_mod_cast hhigh
      cases negative with
      | false =>
        have hout : 2^63-1 < 100*w+f := hout
        have hhigh : ((100*w+f : ℕ) : ℤ) < 2^63 := hhigh
        omega
      | true =>
        have hout : 2^63 < 100*w+f := hout
        have hlow : -2^63 ≤ -((100*w+f : ℕ) : ℤ) := hlow
        omega

example : parseMinorUnits (ascii "-$92,233,720,368,547,758.08 USD") usd =
  .ok Int64.minValue := by decide

end Manvi.Computer
