import Manvi.Budget.Prices

/-! Prices in machine arithmetic against prices in integers: when a charge is exact, and when a
reservation bounds it. -/
namespace Manvi.Budget

section machine
variable {a b : Int64}

lemma toInt_add_of_range (h : -2^63 ≤ a.toInt+b.toInt) (h' : a.toInt+b.toInt < 2^63) :
    (a+b).toInt = a.toInt+b.toInt := by
  rw [Int64.toInt_add]
  exact Int.bmod_eq_of_le h h'

lemma toInt_sub_of_range (h : -2^63 ≤ a.toInt-b.toInt) (h' : a.toInt-b.toInt < 2^63) :
    (a-b).toInt = a.toInt-b.toInt := by
  rw [Int64.toInt_sub]
  exact Int.bmod_eq_of_le h h'

/-- A difference that falls below the range wraps to the top. -/
lemma toInt_sub_of_low (h : a.toInt-b.toInt < -2^63) : (a-b).toInt = a.toInt-b.toInt+2^64 := by
  have ha := a.le_toInt
  have hb := b.toInt_lt
  rw [Int64.toInt_sub,← Int.add_bmod_right]
  exact Int.bmod_eq_of_le (by omega) (by omega)

lemma toInt_mul_of_range (h : -2^63 ≤ a.toInt*b.toInt) (h' : a.toInt*b.toInt < 2^63) :
    (a*b).toInt = a.toInt*b.toInt := by
  rw [Int64.toInt_mul]
  exact Int.bmod_eq_of_le h h'

lemma toInt_max : (max a b).toInt = max a.toInt b.toInt := by
  rw [show max a b = if a ≤ b then b else a from rfl]
  split_ifs with h
  · rw [Int64.le_iff_toInt_le] at h
    rw [max_eq_right h]
  · rw [Int64.le_iff_toInt_le] at h
    rw [max_eq_left (by omega)]

end machine

/-- Every rate is positive and small. -/
def Rates.Sane (r : Rates) : Prop := ∀ v ∈ [r.input,r.output,r.cacheWrite,r.cacheRead],
    0 < v.toInt ∧ v.toInt ≤ 1000000

/-- The tokens of a usage are those that a charge looks at. -/
structure Usage.InRange (u : Usage) : Prop where
  input_pos : 0 < u.inputTokens.toInt
  input_le : u.inputTokens.toInt ≤ 10000000
  output_nonneg : 0 ≤ u.outputTokens.toInt
  output_le : u.outputTokens.toInt ≤ 10000000
  reasoning_nonneg : 0 ≤ u.reasoningTokens.toInt
  reasoning_le : u.reasoningTokens.toInt ≤ 10000000
  read_nonneg : 0 ≤ u.cacheReadTokens.toInt
  write_nonneg : 0 ≤ u.cacheWriteTokens.toInt

/-- The output tokens that are billed. -/
def Prices.billed (p : Prices) (u : Usage) : ℤ :=
  if p.reasoningInOutput then u.outputTokens.toInt else u.outputTokens.toInt+u.reasoningTokens.toInt

/-- The tokens of the prompt that no cache took part in. -/
def Usage.uncached (u : Usage) : ℤ :=
  u.inputTokens.toInt-u.cacheReadTokens.toInt-u.cacheWriteTokens.toInt

/-- What usage costs at some rates. -/
def Rates.cost (r : Rates) (u : Usage) (billed : ℤ) : ℤ :=
  u.uncached*r.input.toInt+u.cacheWriteTokens.toInt*r.cacheWrite.toInt+
  u.cacheReadTokens.toInt*r.cacheRead.toInt+
    billed*r.output.toInt

/-- Every check of a list that passes has passed for each member. -/
lemma forM_ok {α ε : Type} {f : α → Except ε Unit} {l : List α} (h : l.forM f = .ok ()) :
    ∀ v ∈ l, f v = .ok () := by
  induction l with
  | nil =>
    intro v hv
    cases hv
  | cons x l ih =>
    change (f x >>= fun _ => l.forM f) = .ok () at h
    cases hx : f x with
    | error e =>
      rw [hx] at h
      cases h
    | ok u =>
      rw [hx] at h
      intro v hv
      obtain rfl | hv := List.mem_cons.mp hv
      · exact hx
      · exact ih h v hv

section tables
variable {p : Prices} {u : Usage} {r : Rates}

lemma rates_validate (h : r.validate = .ok ()) : r.Sane := by
  intro v hv
  have hok := forM_ok h v hv
  split_ifs at hok with hbad
  rw [not_or,Int64.le_iff_toInt_le,gt_iff_lt,Int64.lt_iff_toInt_lt] at hbad
  have hzero : (0 : Int64).toInt = 0 := rfl
  have hmax : maxRate.toInt = 1000000 := rfl
  omega

/-- Every tier of a validated table is sane. -/
lemma validate_tier (h : p.validate = .ok ()) (n : Int64) : (p.tier n).Sane := by
  unfold Prices.validate at h
  cases hr : p.rates.validate with
  | error e =>
    rw [hr] at h
    cases h
  | ok _ =>
    rw [hr] at h
    change (if p.longPromptAbove < 0 then _ else _) = _ at h
    unfold Prices.tier
    split_ifs with htier
    · rw [if_neg,if_pos htier.1] at h
      · exact rates_validate h
      · intro hneg
        have hpos := htier.1
        rw [gt_iff_lt,Int64.lt_iff_toInt_lt] at hpos
        rw [Int64.lt_iff_toInt_lt] at hneg
        omega
    · exact rates_validate hr

lemma inRange_iff : u.InRange ↔ ¬ (u.inputTokens ≤ 0 ∨ u.inputTokens > maxTokens ∨
    u.outputTokens < 0 ∨
    u.outputTokens > maxTokens ∨ u.reasoningTokens < 0 ∨ u.reasoningTokens > maxTokens ∨
    u.cacheReadTokens < 0 ∨
    u.cacheWriteTokens < 0) := by
  have hzero : (0 : Int64).toInt = 0 := rfl
  have hmax : maxTokens.toInt = 10000000 := rfl
  simp only [gt_iff_lt,Int64.le_iff_toInt_le,Int64.lt_iff_toInt_lt,hzero,hmax]
  constructor
  · rintro ⟨h1,h2,h3,h4,h5,h6,h7,h8⟩
    omega
  · intro h
    exact ⟨by omega,by omega,by omega,by omega,by omega,by omega,by omega,by omega⟩

/-- The subtraction of the cached tokens wraps. -/
def Usage.Wraps (u : Usage) : Prop := u.InRange ∧ u.uncached < -2^63

/-- What a charge computes, once the table and the ranges are checked. -/
def Prices.amount (p : Prices) (u : Usage) : Int64 :=
  (u.inputTokens - u.cacheReadTokens - u.cacheWriteTokens)*(p.tier u.inputTokens).input+
    u.cacheWriteTokens*(p.tier u.inputTokens).cacheWrite+
    u.cacheReadTokens*(p.tier u.inputTokens).cacheRead+
    (if p.reasoningInOutput then u.outputTokens
      else u.outputTokens+u.reasoningTokens)*(p.tier u.inputTokens).output

lemma charge_ok_iff (hp : p.validate = .ok ()) {c : Int64} : p.charge u = .ok c ↔ u.InRange ∧
    ¬ (u.inputTokens - u.cacheReadTokens - u.cacheWriteTokens < 0) ∧ c = p.amount u := by
  unfold Prices.charge
  rw [hp]
  change (if _ then _ else if _ then _ else Except.ok (p.amount u)) = _ ↔ _
  rw [inRange_iff]
  by_cases h1 : u.inputTokens ≤ 0 ∨ u.inputTokens > maxTokens ∨ u.outputTokens < 0 ∨
    u.outputTokens > maxTokens ∨
    u.reasoningTokens < 0 ∨ u.reasoningTokens > maxTokens ∨ u.cacheReadTokens < 0 ∨
    u.cacheWriteTokens < 0
  · rw [if_pos h1]
    exact ⟨fun h => (by cases h),fun h => absurd h1 h.1⟩
  · rw [if_neg h1]
    by_cases h2 : u.inputTokens - u.cacheReadTokens - u.cacheWriteTokens < 0
    · rw [if_pos h2]
      exact ⟨fun h => (by cases h),fun h => absurd h2 h.2.1⟩
    · rw [if_neg h2]
      exact ⟨fun h => ⟨h1,h2,(Except.ok.inj h).symm⟩,fun h => by rw [h.2.2]⟩

/-- The difference of the tokens is exact unless it wraps, and then it is positive. -/
lemma uncached_toInt (h : u.InRange) :
    (u.inputTokens - u.cacheReadTokens - u.cacheWriteTokens).toInt =
    if u.uncached < -2^63 then u.uncached+2^64 else u.uncached := by
  obtain ⟨h1,h2,_,_,_,_,h7,h8⟩ := h
  have hr := u.cacheReadTokens.toInt_lt
  have hw := u.cacheWriteTokens.toInt_lt
  have hfirst : (u.inputTokens - u.cacheReadTokens).toInt =
    u.inputTokens.toInt-u.cacheReadTokens.toInt :=
    toInt_sub_of_range (by omega) (by omega)
  unfold Usage.uncached
  split_ifs with hlow
  · rw [toInt_sub_of_low (by rw [hfirst]; exact hlow),hfirst]
  · rw [toInt_sub_of_range (by rw [hfirst]; omega) (by rw [hfirst]; omega),hfirst]

/-- A product of some tokens and a rate fits. -/
lemma toInt_mul_rate {a b : Int64} (ha : 0 ≤ a.toInt) (ha' : a.toInt ≤ 20000000)
    (hb : 0 < b.toInt ∧ b.toInt ≤ 1000000) :
    (a*b).toInt = a.toInt*b.toInt ∧ 0 ≤ a.toInt*b.toInt ∧ a.toInt*b.toInt ≤ 20000000000000 := by
  have hlow : 0 ≤ a.toInt*b.toInt := mul_nonneg ha hb.1.le
  have hhigh : a.toInt*b.toInt ≤ 20000000*1000000 := mul_le_mul ha' hb.2 hb.1.le (by norm_num)
  exact ⟨toInt_mul_of_range (by omega) (by omega),hlow,by omega⟩

/-- A sum of small amounts fits. -/
lemma toInt_sum {a b c d : Int64} (ha : 0 ≤ a.toInt) (ha' : a.toInt ≤ 20000000000000)
    (hb : 0 ≤ b.toInt)
    (hb' : b.toInt ≤ 20000000000000) (hc : 0 ≤ c.toInt) (hc' : c.toInt ≤ 20000000000000)
    (hd : 0 ≤ d.toInt)
    (hd' : d.toInt ≤ 20000000000000) : (a+b+c+d).toInt = a.toInt+b.toInt+c.toInt+d.toInt := by
  have h1 : (a+b).toInt = a.toInt+b.toInt := toInt_add_of_range (by omega) (by omega)
  have h2 : (a+b+c).toInt = a.toInt+b.toInt+c.toInt := by
    rw [toInt_add_of_range (by omega) (by omega),h1]
  rw [toInt_add_of_range (by omega) (by omega),h2]

/-- A charge for tokens that fit is exact. -/
lemma amount_toInt (hp : p.validate = .ok ()) (h : u.InRange) (hu : 0 ≤ u.uncached) :
    (p.amount u).toInt = (p.tier u.inputTokens).cost u (p.billed u) ∧ 0 ≤ (p.amount u).toInt := by
  have hsane := validate_tier hp u.inputTokens
  have hun := uncached_toInt h
  rw [if_neg (by omega)] at hun
  obtain ⟨_,h2,h3,h4,h5,h6,h7,h8⟩ := h
  have hle : u.uncached = u.inputTokens.toInt-u.cacheReadTokens.toInt-
    u.cacheWriteTokens.toInt := rfl
  have hbilled : (if p.reasoningInOutput then u.outputTokens
    else u.outputTokens+u.reasoningTokens).toInt = p.billed u ∧
      0 ≤ p.billed u ∧ p.billed u ≤ 20000000 := by
    unfold Prices.billed
    split_ifs
    · exact ⟨rfl,h3,by omega⟩
    · exact ⟨toInt_add_of_range (by omega) (by omega),by omega,by omega⟩
  obtain ⟨e1,l1,u1⟩ := toInt_mul_rate (a := u.inputTokens - u.cacheReadTokens - u.cacheWriteTokens)
    (b := (p.tier u.inputTokens).input) (by omega) (by omega) (hsane _ (by simp))
  obtain ⟨e2,l2,u2⟩ := toInt_mul_rate (a := u.cacheWriteTokens)
    (b := (p.tier u.inputTokens).cacheWrite) h8 (by omega)
    (hsane _ (by simp))
  obtain ⟨e3,l3,u3⟩ := toInt_mul_rate (a := u.cacheReadTokens)
    (b := (p.tier u.inputTokens).cacheRead) h7 (by omega)
    (hsane _ (by simp))
  obtain ⟨e4,l4,u4⟩ := toInt_mul_rate
    (a := if p.reasoningInOutput then u.outputTokens else u.outputTokens+u.reasoningTokens)
    (b := (p.tier u.inputTokens).output) (by omega) (by omega) (hsane _ (by simp))
  rw [← e1] at l1 u1
  rw [← e2] at l2 u2
  rw [← e3] at l3 u3
  rw [← e4] at l4 u4
  have hsum : (p.amount u).toInt = _ := toInt_sum l1 u1 l2 u2 l3 u3 l4 u4
  refine ⟨?_,by omega⟩
  rw [hsum,e1,e2,e3,e4,hun,hbilled.1]
  rfl

instance : Decidable u.InRange := decidable_of_iff _ inRange_iff.symm

/-- A charge in integers: what the tokens cost, if there are no more cached ones than the prompt
has. -/
def Prices.exactCharge (p : Prices) (u : Usage) : Option ℤ :=
  if u.InRange ∧ 0 ≤ u.uncached then some ((p.tier u.inputTokens).cost u (p.billed u)) else none

def Prices.exactBound (p : Prices) (u : Usage) (outputBound : Int64) : Option ℤ :=
  if 0 < outputBound.toInt ∧ outputBound.toInt ≤ 10000000 then
    p.exactCharge { u with outputTokens := outputBound, reasoningTokens := 0 } else none

/-- Both bounds of a reservation are positive and small. -/
def BoundsOk (promptBound outputBound : Int64) : Prop :=
  (0 < promptBound.toInt ∧ promptBound.toInt ≤ 10000000) ∧ 0 < outputBound.toInt ∧
  outputBound.toInt ≤ 10000000

/-- What a reservation holds back, in integers. -/
def Prices.reserved (p : Prices) (promptBound outputBound : Int64) : ℤ :=
  promptBound.toInt*max (p.tier promptBound).input.toInt (p.tier promptBound).cacheWrite.toInt+
    outputBound.toInt*(p.tier promptBound).output.toInt

instance (promptBound outputBound : Int64) : Decidable (BoundsOk promptBound outputBound) :=
  inferInstanceAs (Decidable ((_ ∧ _) ∧ _ ∧ _))

def Prices.exactReserve (p : Prices) (promptBound outputBound : Int64) : Option ℤ :=
  if BoundsOk promptBound outputBound then some (p.reserved promptBound outputBound) else none

/-- An amount that is returned is the one in integers, and it is not negative. -/
def Exactly (x : Except PriceErr Int64) (y : Option ℤ) : Prop :=
  ∀ c, x = .ok c → y = some c.toInt ∧ 0 ≤ c.toInt

lemma charge_exactly_iff (hp : p.validate = .ok ()) :
    Exactly (p.charge u) (p.exactCharge u) ↔ ¬ u.Wraps := by
  constructor
  · rintro hexact ⟨hr,hlow⟩
    have hun := uncached_toInt hr
    rw [if_pos hlow] at hun
    have hread := u.cacheReadTokens.toInt_lt
    have hwrite := u.cacheWriteTokens.toInt_lt
    have hpos : ¬ (u.inputTokens - u.cacheReadTokens - u.cacheWriteTokens < 0) := by
      rw [Int64.lt_iff_toInt_lt,hun,show (0 : Int64).toInt = 0 from rfl]
      have := hr.input_pos
      unfold Usage.uncached
      omega
    obtain ⟨he,_⟩ := hexact _ ((charge_ok_iff hp).mpr ⟨hr,hpos,rfl⟩)
    unfold Prices.exactCharge at he
    rw [if_neg (fun h => by omega)] at he
    cases he
  · intro hno c hc
    obtain ⟨hr,hneg,rfl⟩ := (charge_ok_iff hp).mp hc
    have hun := uncached_toInt hr
    rw [if_neg (fun hlow => hno ⟨hr,hlow⟩)] at hun
    rw [Int64.lt_iff_toInt_lt,hun,show (0 : Int64).toInt = 0 from rfl] at hneg
    obtain ⟨hamount,hnonneg⟩ := amount_toInt hp hr (by omega)
    exact ⟨by rw [Prices.exactCharge,if_pos ⟨hr,by omega⟩,hamount],hnonneg⟩

lemma boundsOk_iff {promptBound outputBound : Int64} :
    BoundsOk promptBound outputBound ↔ ¬ (promptBound ≤ 0 ∨
    promptBound > maxTokens ∨ outputBound ≤ 0 ∨ outputBound > maxTokens) := by
  have hzero : (0 : Int64).toInt = 0 := rfl
  have hmax : maxTokens.toInt = 10000000 := rfl
  simp only [BoundsOk,gt_iff_lt,Int64.le_iff_toInt_le,Int64.lt_iff_toInt_lt,hzero,hmax]
  omega

/-- A reservation whose bounds are in range is made, and it is exact. -/
lemma reserve_of_bounds (hp : p.validate = .ok ()) {promptBound outputBound : Int64}
    (hb : BoundsOk promptBound outputBound) :
    ∃ r, p.reserve promptBound outputBound = .ok r ∧
    r.toInt = p.reserved promptBound outputBound := by
  have hrun : p.reserve promptBound outputBound = .ok (promptBound*max (p.tier promptBound).input
      (p.tier promptBound).cacheWrite+outputBound*(p.tier promptBound).output) := by
    unfold Prices.reserve
    rw [hp]
    exact if_neg (boundsOk_iff.mp hb)
  obtain ⟨⟨h1,h2⟩,h3,h4⟩ := hb
  have hsane := validate_tier hp promptBound
  have hdear : 0 < (max (p.tier promptBound).input (p.tier promptBound).cacheWrite).toInt ∧
      (max (p.tier promptBound).input (p.tier promptBound).cacheWrite).toInt ≤ 1000000 := by
    have hin := hsane (p.tier promptBound).input (by simp)
    have hw := hsane (p.tier promptBound).cacheWrite (by simp)
    rw [toInt_max]
    omega
  obtain ⟨e1,l1,u1⟩ := toInt_mul_rate (a := promptBound) (by omega) (by omega) hdear
  obtain ⟨e2,l2,u2⟩ := toInt_mul_rate (a := outputBound) (by omega) (by omega)
    (hsane (p.tier promptBound).output (by simp))
  refine ⟨_,hrun,?_⟩
  rw [toInt_add_of_range (by omega) (by omega),e1,e2,toInt_max]
  rfl

/-- A reservation that is made has bounds in range, and is exact. -/
lemma reserve_ok (hp : p.validate = .ok ()) {promptBound outputBound r : Int64}
    (h : p.reserve promptBound outputBound = .ok r) :
    BoundsOk promptBound outputBound ∧ r.toInt = p.reserved promptBound outputBound := by
  have hb : BoundsOk promptBound outputBound := by
    rw [boundsOk_iff]
    intro hbad
    unfold Prices.reserve at h
    rw [hp] at h
    change (if _ then _ else _) = _ at h
    rw [if_pos hbad] at h
    cases h
  obtain ⟨r',hr',he⟩ := reserve_of_bounds hp hb
  rw [h] at hr'
  rw [Except.ok.inj hr']
  exact ⟨hb,he⟩

lemma reserve_exactly (hp : p.validate = .ok ()) (promptBound outputBound : Int64) :
    Exactly (p.reserve promptBound outputBound) (p.exactReserve promptBound outputBound) := by
  intro r hr
  obtain ⟨hb,he⟩ := reserve_ok hp hr
  have hsane := validate_tier hp promptBound
  refine ⟨by rw [Prices.exactReserve,if_pos hb,he],?_⟩
  rw [he,Prices.reserved]
  have hin := (hsane (p.tier promptBound).input (by simp)).1
  have hout := (hsane (p.tier promptBound).output (by simp)).1
  have hprompt := hb.1.1
  have houtput := hb.2.1
  positivity

/-- The usage with the output bound in place of what was put out. -/
def Usage.withOutput (u : Usage) (outputBound : Int64) : Usage :=
  { u with outputTokens := outputBound, reasoningTokens := 0 }

lemma bound_exactly_iff (hp : p.validate = .ok ()) (outputBound : Int64) :
    Exactly (p.bound u outputBound) (p.exactBound u outputBound) ↔
      ¬ (0 < outputBound.toInt ∧ outputBound.toInt ≤ 10000000 ∧
        (u.withOutput outputBound).Wraps) := by
  have hzero : (0 : Int64).toInt = 0 := rfl
  have hmax : maxTokens.toInt = 10000000 := rfl
  unfold Prices.bound Prices.exactBound
  by_cases hbad : outputBound ≤ 0 ∨ outputBound > maxTokens
  · rw [if_pos hbad]
    rw [Int64.le_iff_toInt_le,gt_iff_lt,Int64.lt_iff_toInt_lt,hzero,hmax] at hbad
    exact ⟨fun _ h => (by omega),fun _ c hc => (by cases hc)⟩
  · rw [if_neg hbad]
    rw [Int64.le_iff_toInt_le,gt_iff_lt,Int64.lt_iff_toInt_lt,hzero,hmax] at hbad
    rw [if_pos (by omega)]
    refine (charge_exactly_iff hp).trans ?_
    exact ⟨fun h hall => h hall.2.2,fun h hw => h ⟨by omega,by omega,hw⟩⟩

end tables

/-- Charges, bounds and reservations are refused or exact, if and only if the cached tokens do not
exceed the prompt by so much that their difference wraps. -/
theorem pricing_exact_iff (p : Prices) (hp : p.validate = .ok ()) (u : Usage)
    (promptBound outputBound : Int64) :
    (Exactly (p.charge u) (p.exactCharge u) ∧
      Exactly (p.bound u outputBound) (p.exactBound u outputBound) ∧
      Exactly (p.reserve promptBound outputBound) (p.exactReserve promptBound outputBound)) ↔
    ¬ u.Wraps ∧ ¬ (0 < outputBound.toInt ∧ outputBound.toInt ≤ 10000000 ∧
      (u.withOutput outputBound).Wraps) := by
  rw [charge_exactly_iff hp,bound_exactly_iff hp]
  exact ⟨fun h => ⟨h.1,h.2.1⟩,fun h => ⟨h.1,h.2,reserve_exactly hp _ _⟩⟩

/-- A flat table. -/
def flatPrices : Prices := ⟨⟨3000,15000,3750,300⟩,0,⟨0,0,0,0⟩,true⟩

theorem pricing_exact_iff_plain : flatPrices.validate = .ok () ∧
    Exactly (flatPrices.charge ⟨10,1,4,2,0⟩) (flatPrices.exactCharge ⟨10,1,4,2,0⟩) :=
  ⟨by decide,((pricing_exact_iff flatPrices (by decide) ⟨10,1,4,2,0⟩ 10 1).mpr
    ⟨fun h => absurd h.2 (by decide),fun h => absurd h.2.2.2 (by decide)⟩).1⟩

/-- Cache counts at the top of the range pass every check: a usage whose cached tokens exceed its
prompt is not refused, and its charge is that of a few tokens. -/
theorem wrapped_usage_is_charged : flatPrices.validate = .ok () ∧
    flatPrices.charge ⟨10,1,9223372036854775807,9223372036854775807,0⟩ = .ok 46950 ∧
    flatPrices.exactCharge ⟨10,1,9223372036854775807,9223372036854775807,0⟩ = none ∧
    ¬ Exactly (flatPrices.charge ⟨10,1,9223372036854775807,9223372036854775807,0⟩)
      (flatPrices.exactCharge ⟨10,1,9223372036854775807,9223372036854775807,0⟩) := by
  have hcharge : flatPrices.charge ⟨10,1,9223372036854775807,9223372036854775807,
    0⟩ = .ok 46950 := by decide
  have hexact : flatPrices.exactCharge ⟨10,1,9223372036854775807,9223372036854775807,
    0⟩ = none := by decide
  refine ⟨by decide,hcharge,hexact,?_⟩
  intro h
  have := (h 46950 hcharge).1
  rw [hexact] at this
  cases this

/-- The dearest way to read a token of the prompt. -/
def Rates.dearest (r : Rates) : ℤ := max (max r.input.toInt r.cacheWrite.toInt) r.cacheRead.toInt

/-- No cache read costs more than a reservation assumes, and where a bound is above the threshold of
long prompts, a prompt at the threshold costs no more than what is reserved at the long rates. -/
structure Prices.Covers (p : Prices) (promptBound outputBound : Int64) : Prop where
  read : (p.tier promptBound).cacheRead.toInt ≤ max (p.tier promptBound).input.toInt
    (p.tier promptBound).cacheWrite.toInt
  short : 0 < p.longPromptAbove.toInt → p.longPromptAbove.toInt < promptBound.toInt →
    p.longPromptAbove.toInt*p.rates.dearest+outputBound.toInt*p.rates.output.toInt ≤
    p.reserved promptBound outputBound

section covers
variable {p : Prices} {u : Usage} {promptBound outputBound : Int64}

/-- What usage costs, with every token of the prompt at the dearest rate. -/
lemma cost_le_dearest {r : Rates} (hr : u.InRange) (hu : 0 ≤ u.uncached) (billed : ℤ) :
    r.cost u billed ≤ u.inputTokens.toInt*r.dearest+billed*r.output.toInt := by
  have h1 : u.uncached*r.input.toInt ≤ u.uncached*r.dearest :=
    mul_le_mul_of_nonneg_left ((le_max_left _ _).trans (le_max_left _ _)) hu
  have h2 : u.cacheWriteTokens.toInt*r.cacheWrite.toInt ≤ u.cacheWriteTokens.toInt*r.dearest :=
    mul_le_mul_of_nonneg_left ((le_max_right _ _).trans (le_max_left _ _)) hr.write_nonneg
  have h3 : u.cacheReadTokens.toInt*r.cacheRead.toInt ≤ u.cacheReadTokens.toInt*r.dearest :=
    mul_le_mul_of_nonneg_left (le_max_right _ _) hr.read_nonneg
  have hsplit : u.inputTokens.toInt*r.dearest =
      u.uncached*r.dearest+u.cacheWriteTokens.toInt*r.dearest+
      u.cacheReadTokens.toInt*r.dearest := by
    unfold Usage.uncached
    ring
  unfold Rates.cost
  omega

lemma tier_toInt (p : Prices) (n : Int64) :
    p.tier n = if 0 < p.longPromptAbove.toInt ∧ p.longPromptAbove.toInt < n.toInt then
    p.longRates else p.rates := by
  unfold Prices.tier
  refine if_congr ?_ rfl rfl
  rw [gt_iff_lt,gt_iff_lt,Int64.lt_iff_toInt_lt,Int64.lt_iff_toInt_lt]
  exact Iff.rfl

lemma mul_add_le {a b c d x y : ℤ} (ha : a ≤ b) (hx : 0 ≤ x) (hc : c ≤ d) (hy : 0 ≤ y) :
    a*x+c*y ≤ b*x+d*y :=
  add_le_add (mul_le_mul_of_nonneg_right ha hx) (mul_le_mul_of_nonneg_right hc hy)

/-- A table that covers its bounds has room for every charge. -/
lemma cost_le_reserved (hp : p.validate = .ok ()) (hc : p.Covers promptBound outputBound)
    (hr : u.InRange)
    (hu : 0 ≤ u.uncached) (hin : u.inputTokens.toInt ≤ promptBound.toInt) {billed : ℤ}
    (hout : billed ≤ outputBound.toInt) :
    (p.tier u.inputTokens).cost u billed ≤ p.reserved promptBound outputBound := by
  refine (cost_le_dearest hr hu billed).trans ?_
  have hsane := validate_tier hp u.inputTokens
  have hdear : 0 ≤ (p.tier u.inputTokens).dearest := by
    have := (hsane (p.tier u.inputTokens).cacheRead (by simp)).1
    exact this.le.trans (le_max_right _ _)
  have houtput := (hsane (p.tier u.inputTokens).output (by simp)).1.le
  by_cases hsame : p.tier u.inputTokens = p.tier promptBound
  · have hread := hc.read
    refine (mul_add_le hin hdear hout houtput).trans (le_of_eq ?_)
    rw [hsame,Rates.dearest,max_eq_left hread]
    rfl
  · rw [tier_toInt,tier_toInt] at hsame
    split_ifs at hsame with h1 h2 h3
    · exact absurd rfl hsame
    · omega
    · have hshort : p.tier u.inputTokens = p.rates := by
        rw [tier_toInt,if_neg h1]
      have hle : u.inputTokens.toInt ≤ p.longPromptAbove.toInt := by omega
      refine (mul_add_le hle hdear hout houtput).trans ?_
      rw [hshort]
      exact hc.short h3.1 h3.2
    · exact absurd rfl hsame

/-- A usage that reads a prompt in one way only and puts out what it may. -/
def plainUsage (prompt read write output : Int64) : Usage := ⟨prompt,output,read,write,0⟩

lemma plain_charge (hp : p.validate = .ok ()) {prompt read write : Int64}
    (hprompt : 0 < prompt.toInt)
    (hprompt' : prompt.toInt ≤ 10000000) (hread : 0 ≤ read.toInt) (hwrite : 0 ≤ write.toInt)
    (hall : read.toInt+write.toInt ≤ prompt.toInt) (hout : 0 < outputBound.toInt)
    (hout' : outputBound.toInt ≤ 10000000) :
    ∃ c, p.charge (plainUsage prompt read write outputBound) = .ok c ∧
      p.billed (plainUsage prompt read write outputBound) = outputBound.toInt ∧
      0 ≤ (plainUsage prompt read write outputBound).uncached ∧
      c.toInt = (p.tier prompt).cost
      (plainUsage prompt read write outputBound) outputBound.toInt := by
  have hr : (plainUsage prompt read write outputBound).InRange :=
    ⟨hprompt,hprompt',hout.le,hout',le_refl 0,show (0 : ℤ) ≤ 10000000 by norm_num,hread,hwrite⟩
  have hu : 0 ≤ (plainUsage prompt read write outputBound).uncached := by
    change 0 ≤ prompt.toInt-read.toInt-write.toInt
    omega
  have hbilled : p.billed (plainUsage prompt read write outputBound) = outputBound.toInt := by
    unfold Prices.billed
    split_ifs
    · rfl
    · change outputBound.toInt+0 = outputBound.toInt
      omega
  have hun := uncached_toInt hr
  rw [if_neg (by omega)] at hun
  obtain ⟨hamount,_⟩ := amount_toInt hp hr hu
  refine ⟨p.amount (plainUsage prompt read write outputBound),(charge_ok_iff hp).mpr ⟨hr,?_,rfl⟩,
    hbilled,hu,?_⟩
  · rw [Int64.lt_iff_toInt_lt,hun,show (0 : Int64).toInt = 0 from rfl]
    omega
  · rw [hamount,hbilled]
    rfl

end covers

/-- A reservation bounds the charge of every usage within its bounds, whose cached tokens are no
more than its prompt, if and only if the table covers the bounds. -/
theorem reserve_bounds_charge_iff (p : Prices) (hp : p.validate = .ok ())
    (promptBound outputBound : Int64)
    (hbounds : BoundsOk promptBound outputBound) :
    (∀ u c r, u.inputTokens.toInt ≤ promptBound.toInt → p.billed u ≤ outputBound.toInt →
      0 ≤ u.uncached →
      p.charge u = .ok c → p.reserve promptBound outputBound = .ok r → c.toInt ≤ r.toInt) ↔
    p.Covers promptBound outputBound := by
  constructor
  · intro hall
    obtain ⟨r,hr,hrv⟩ := reserve_of_bounds hp hbounds
    obtain ⟨⟨h1,h2⟩,h3,h4⟩ := hbounds
    have htest : ∀ prompt read write : Int64, 0 < prompt.toInt → prompt.toInt ≤ promptBound.toInt →
      0 ≤ read.toInt →
        0 ≤ write.toInt → read.toInt+write.toInt ≤ prompt.toInt →
        (p.tier prompt).cost (plainUsage prompt read write outputBound) outputBound.toInt ≤
        p.reserved promptBound outputBound := by
      intro prompt read write hprompt hle hread hwrite hsum
      obtain ⟨c,hc,hbilled,hu,hcv⟩ := plain_charge hp hprompt (hle.trans h2) hread hwrite hsum h3 h4
      rw [← hcv,← hrv]
      exact hall _ c r hle hbilled.le hu hc hr
    have hcost : ∀ (rates : Rates) (prompt read write : Int64),
      rates.cost (plainUsage prompt read write outputBound) outputBound.toInt =
        (prompt.toInt-read.toInt-write.toInt)*rates.input.toInt+write.toInt*rates.cacheWrite.toInt+
          read.toInt*rates.cacheRead.toInt+outputBound.toInt*rates.output.toInt :=
          fun _ _ _ _ => rfl
    have hzero : (0 : Int64).toInt = 0 := rfl
    refine ⟨?_,?_⟩
    · have hread := htest promptBound promptBound 0 h1 le_rfl h1.le le_rfl (by rw [hzero]; omega)
      rw [hcost,hzero,Prices.reserved] at hread
      have hle : promptBound.toInt*(p.tier promptBound).cacheRead.toInt ≤ promptBound.toInt*
          max (p.tier promptBound).input.toInt (p.tier promptBound).cacheWrite.toInt := by
        linarith
      exact le_of_mul_le_mul_left hle h1
    · intro hpos habove
      have htier : p.tier p.longPromptAbove = p.rates := by
        rw [tier_toInt,if_neg (by omega)]
      have hin := htest p.longPromptAbove 0 0 hpos habove.le le_rfl le_rfl (by rw [hzero]; omega)
      have hwrite := htest p.longPromptAbove 0 p.longPromptAbove hpos habove.le le_rfl hpos.le
        (by rw [hzero]; omega)
      have hread := htest p.longPromptAbove p.longPromptAbove 0 hpos habove.le hpos.le le_rfl
        (by rw [hzero]; omega)
      rw [htier,hcost,hzero] at hin hwrite hread
      unfold Rates.dearest
      rw [mul_max_of_nonneg _ _ hpos.le,mul_max_of_nonneg _ _ hpos.le]
      rw [← max_add_add_right,← max_add_add_right]
      refine max_le (max_le ?_ ?_) ?_
      · linarith
      · linarith
      · linarith
  · intro hc u c r hin hout hu hcharge hres
    obtain ⟨hr,_,rfl⟩ := (charge_ok_iff hp).mp hcharge
    rw [(amount_toInt hp hr hu).1,(reserve_ok hp hres).2]
    exact cost_le_reserved hp hc hr hu hin hout

theorem reserve_bounds_charge_iff_flat : flatPrices.validate = .ok () ∧ BoundsOk 100 10 ∧
    ∀ c r, flatPrices.charge ⟨10,1,4,2,0⟩ = .ok c → flatPrices.reserve 100 10 = .ok r →
    c.toInt ≤ r.toInt :=
  ⟨by decide,by decide,fun c r => (reserve_bounds_charge_iff flatPrices (by decide) 100 10
    (by decide)).mpr ⟨by decide,fun h => absurd h (by decide)⟩ ⟨10,1,4,2,0⟩ c r (by decide)
    (by decide) (by decide)⟩

/-- A table whose long rates are lower: a validated one, in which the longest short prompt costs
more than the reservation for a longer one. -/
def discountPrices : Prices := ⟨⟨3000,15000,3750,300⟩,200000,⟨1500,7500,1875,150⟩,true⟩

theorem charge_above_reservation : discountPrices.validate = .ok () ∧ BoundsOk 200001 1 ∧
    discountPrices.charge ⟨200000,1,0,0,0⟩ = .ok 600015000 ∧
    discountPrices.reserve 200001 1 = .ok 375009375 ∧
    ¬ ∀ u c r, u.inputTokens.toInt ≤ (200001 : Int64).toInt →
    discountPrices.billed u ≤ (1 : Int64).toInt →
      discountPrices.charge u = .ok c → discountPrices.reserve 200001 1 = .ok r →
      c.toInt ≤ r.toInt := by
  have hcharge : discountPrices.charge ⟨200000,1,0,0,0⟩ = .ok 600015000 := by decide
  have hreserve : discountPrices.reserve 200001 1 = .ok 375009375 := by decide
  refine ⟨by decide,by decide,hcharge,hreserve,?_⟩
  intro hall
  have hle := hall _ _ _ (by decide) (by decide) hcharge hreserve
  exact absurd hle (by decide)

end Manvi.Budget
