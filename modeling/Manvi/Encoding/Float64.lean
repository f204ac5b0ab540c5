import Manvi.Encoding.JsonRoundTrip

/-! Numbers of a JSON document as encoding/json treats them: decoded to the nearest double, and
encoded as the shortest decimal that decodes to it. -/
namespace Manvi.Encoding

namespace Number
open Json

/-- The digits of a literal without its decimal point. -/
def mantissa (n : Number) : ℕ := n.fraction.foldl (fun acc d => 10*acc+d.val) n.whole

/-- The power of ten that goes with the mantissa. -/
def scale (n : Number) : ℤ :=
  (match n.exponent with
    | none => 0
    | some e => (if e.sign = some true then
      -1 else 1)*(digitsValue (e.lead :: e.rest) : ℤ))-n.fraction.length

/-- The number a literal stands for. -/
def value (n : Number) : ℚ := (if n.negative then -1 else 1)*n.mantissa*10^n.scale

end Number

namespace Float64

/-- The exponent of the largest power of the base that is at most a positive number. -/
def floorLog (base : ℕ) (q : ℚ) : ℤ :=
  let e : ℤ := Nat.log base q.num.natAbs-Nat.log base q.den
  if (base : ℚ)^e ≤ q then e else e-1

/-- Rounding to the nearest integer, and to the even one of two. -/
def halfEven (q : ℚ) : ℤ :=
  let f := ⌊q⌋
  if q-f < 1/2 then f else if 1/2 < q-f then f+1 else if f%2 = 0 then f else f+1

/-- The double nearest to a number, or nothing when it is out of range. -/
def round (q : ℚ) : Option ℚ :=
  if q = 0 then some 0
  else
    let x := max (floorLog 2 |q|-52) (-1074)
    let v : ℚ := halfEven (|q|/2^x)*2^x
    if 2^1024 ≤ v then none else some (if q < 0 then -v else v)

/-- The fewest digits whose decimal rounds to a positive double, and their power of ten. -/
def shortest (v : ℚ) : ℕ × ℤ :=
  let attempts : List (ℕ × ℤ) := (List.range 17).flatMap (fun k =>
    let s := floorLog 10 v-k
    let q := v/10^s
    [((halfEven q).toNat,s),(⌊q⌋.toNat,s),(⌈q⌉.toNat,s)])
  (attempts.find? (fun a => round (a.1*10^a.2) = some v)).getD ((halfEven v).toNat,0)

/-- The digits of a number, filled up with zeros in front. -/
def padDigits : ℕ → ℕ → List (Fin 10)
  | 0,_ => []
  | k+1,n => padDigits k (n/10) ++ [Fin.ofNat 10 n]

/-- Take zeros off the end of some digits. -/
def trimZeros : ℕ → ℕ × ℤ → ℕ × ℤ
  | 0,d => d
  | fuel+1,d => if d.1 ≠ 0 ∧ d.1%10 = 0 then trimZeros fuel (d.1/10,d.2+1) else d

/-- The literal encoding/json writes for a double of the given sign and size. -/
def format (negative : Bool) (v : ℚ) : Number :=
  if v = 0 then ⟨negative,0,[],none⟩
  else
    let d := trimZeros 20 (shortest v)
    let k := Nat.log 10 d.1
    if (round (1/10^6)).any (fun small => v < small) ∨ 10^21 ≤ v then
      let e := d.2+k
      match Json.natDigits e.natAbs with
      | [] => ⟨negative,d.1/10^k,padDigits k d.1,none⟩
      | lead :: rest => ⟨negative,d.1/10^k,padDigits k d.1,some ⟨false,some (e < 0),lead,rest⟩⟩
    else if 0 ≤ d.2 then ⟨negative,d.1*10^d.2.toNat,[],none⟩
    else ⟨negative,d.1/10^(-d.2).toNat,padDigits (-d.2).toNat d.1,none⟩

end Float64

/-- The literal a number is encoded as once it has been decoded to a double. -/
def Number.float64 (n : Number) : Option Number :=
  (Float64.round n.value).map (fun v => Float64.format n.negative |v|)

end Manvi.Encoding
