import Mathlib

/-! What a request costs: price tables, the reservation before it is sent and the charge for its
usage, in machine arithmetic. -/
namespace Manvi.Budget

/-- One price tier, in nano-USD per token. -/
structure Rates where
  input : Int64
  output : Int64
  cacheWrite : Int64
  cacheRead : Int64
  deriving DecidableEq

/-- What one model costs. A prompt above a positive threshold is priced at the long rates. -/
structure Prices where
  rates : Rates
  longPromptAbove : Int64
  longRates : Rates
  reasoningInOutput : Bool
  deriving DecidableEq

/-- The usage that a provider reports. -/
structure Usage where
  inputTokens : Int64
  outputTokens : Int64
  cacheReadTokens : Int64
  cacheWriteTokens : Int64
  reasoningTokens : Int64
  deriving DecidableEq

inductive PriceErr
  | rate (v : Int64)
  | negativeThreshold
  | outputBound (bound : Int64)
  | bounds (prompt output : Int64)
  | usage (u : Usage)
  | cached (u : Usage)
  deriving DecidableEq

def maxRate : Int64 := 1000000

def maxTokens : Int64 := 10000000

/-- The first rate that is not positive or too large is refused. -/
def Rates.validate (r : Rates) : Except PriceErr Unit :=
  [r.input,r.output,r.cacheWrite,r.cacheRead].forM (fun v => if v ≤ 0 ∨ v > maxRate then
    .error (.rate v) else .ok ())

namespace Prices

def validate (p : Prices) : Except PriceErr Unit := do
  p.rates.validate
  if p.longPromptAbove < 0 then .error .negativeThreshold
  else if p.longPromptAbove > 0 then p.longRates.validate
  else .ok ()

def tier (p : Prices) (promptTokens : Int64) : Rates :=
  if p.longPromptAbove > 0 ∧ promptTokens > p.longPromptAbove then p.longRates else p.rates

/-- Price authoritative usage. -/
def charge (p : Prices) (u : Usage) : Except PriceErr Int64 := do
  p.validate
  if u.inputTokens ≤ 0 ∨ u.inputTokens > maxTokens ∨ u.outputTokens < 0 ∨
    u.outputTokens > maxTokens ∨
      u.reasoningTokens < 0 ∨ u.reasoningTokens > maxTokens ∨ u.cacheReadTokens < 0 ∨
      u.cacheWriteTokens < 0 then
    .error (.usage u)
  else
    let uncached := u.inputTokens - u.cacheReadTokens - u.cacheWriteTokens
    if uncached < 0 then .error (.cached u)
    else
      let r := p.tier u.inputTokens
      let output := if p.reasoningInOutput then u.outputTokens else u.outputTokens+u.reasoningTokens
      .ok (uncached*r.input+u.cacheWriteTokens*r.cacheWrite+u.cacheReadTokens*r.cacheRead+
        output*r.output)

/-- Bound what an attempt can have cost when its prompt usage is known and its output is not. -/
def bound (p : Prices) (prompt : Usage) (outputBound : Int64) : Except PriceErr Int64 :=
  if outputBound ≤ 0 ∨ outputBound > maxTokens then .error (.outputBound outputBound)
  else p.charge { prompt with outputTokens := outputBound, reasoningTokens := 0 }

/-- Bound what one attempt can cost before it is sent. -/
def reserve (p : Prices) (promptBound outputBound : Int64) : Except PriceErr Int64 := do
  p.validate
  if promptBound ≤ 0 ∨ promptBound > maxTokens ∨ outputBound ≤ 0 ∨ outputBound > maxTokens then
    .error (.bounds promptBound outputBound)
  else
    let r := p.tier promptBound
    .ok (promptBound*max r.input r.cacheWrite+outputBound*r.output)

end Prices

end Manvi.Budget
