import Manvi.Encoding.Space
import Manvi.Encoding.Utf8

/-! Texts in double quotes, as strconv.Unquote reads them. -/
namespace Manvi.Encoding

/-- The escapes of one letter, and the bytes they stand for. -/
def letterEscapes : List (UInt8 × UInt8) :=
  [(97,7),(98,8),(116,9),(110,10),(118,11),(102,12),(114,13),(34,34),(92,92)]

def unhex (c : UInt8) : Option ℕ :=
  if 48 ≤ c ∧ c ≤ 57 then some (c.toNat-48)
  else if 97 ≤ c ∧ c ≤ 102 then some (c.toNat-87)
  else if 65 ≤ c ∧ c ≤ 70 then some (c.toNat-55)
  else none

/-- The number that so many hex digits write, and what follows them. -/
def unhexMany : ℕ → ℕ → Bytes → Option (ℕ × Bytes)
  | 0,v,s => some (v,s)
  | _+1,_,[] => none
  | n+1,v,c :: s => match unhex c with
    | none => none
    | some x => unhexMany n (16*v+x) s

def isOctal (c : UInt8) : Bool := 48 ≤ c && c ≤ 55

/-- What a backslash with this after it stands for, and what follows. -/
def unescape : Bytes → Option (Bytes × Bytes)
  | [] => none
  | c :: s =>
    match letterEscapes.lookup c with
    | some b => some ([b],s)
    | none =>
      if c = 120 then (unhexMany 2 0 s).map (fun e => ([UInt8.ofNat e.1],e.2))
      else if c = 117 ∨ c = 85 then match unhexMany (if c = 117 then 4 else 8) 0 s with
        | none => none
        | some (v,rest) => if v.isValidChar then some (String.utf8EncodeChar (Char.ofNat v),rest)
          else none
      else if isOctal c then match s with
        | d :: e :: rest =>
          let v := 64*(c.toNat-48)+8*(d.toNat-48)+(e.toNat-48)
          if isOctal d ∧ isOctal e ∧ v ≤ 255 then some ([UInt8.ofNat v],rest) else none
        | _ => none
      else none

/-- The next character of a text in quotes, as bytes, and what follows. Bytes that are no character
become the replacement. -/
def unquoteChar : Bytes → Option (Bytes × Bytes)
  | [] => none
  | c :: s =>
    if c = 34 then none
    else if 128 ≤ c then match firstRune (c :: s) with
      | some r => some (String.utf8EncodeChar r,(c :: s).drop r.utf8Size)
      | none => some (String.utf8EncodeChar '\uFFFD',s)
    else if c ≠ 92 then some ([c],s)
    else unescape s

/-- The characters up to the closing quote, for so many of them, and what follows it. -/
def unquoteBody : ℕ → Bytes → Option (Bytes × Bytes)
  | 0,_ => none
  | _+1,[] => none
  | n+1,c :: s =>
    if c = 34 then some ([],s)
    else if c = 10 then none
    else match unquoteChar (c :: s) with
      | none => none
      | some (b,rest) => (unquoteBody n rest).map (fun e => (b ++ e.1,e.2))

/-- A text in double quotes with nothing after it. -/
def unquote : Bytes → Option Bytes
  | [] => none
  | c :: s =>
    if c = 34 then match unquoteBody (s.length+1) s with
      | some (b,[]) => some b
      | _ => none
    else none

section body
variable {n : ℕ} {s b rest : Bytes}

lemma unquoteBody_char {c : UInt8} (hquote : c ≠ 34) (hline : c ≠ 10)
    (h : unquoteChar (c :: s) = some (b,rest)) (n : ℕ) :
    unquoteBody (n+1) (c :: s) = (unquoteBody n rest).map (fun e => (b ++ e.1,e.2)) := by
  rw [unquoteBody,if_neg hquote,if_neg hline,h]

lemma unquoteChar_plain {c : UInt8} (hquote : c ≠ 34) (hescape : c ≠ 92) (h : c < 128) :
    unquoteChar (c :: s) = some ([c],s) := by
  rw [unquoteChar,if_neg hquote,if_neg (by simpa using h),if_pos hescape]

lemma unquoteChar_escape (h : unescape s = some (b,rest)) :
    unquoteChar (92 :: s) = some (b,rest) := h

lemma unquoteChar_rune {c : UInt8} (h : 128 ≤ c) {r : Char} (hr : firstRune (c :: s) = some r) :
    unquoteChar (c :: s) = some (String.utf8EncodeChar r,(c :: s).drop r.utf8Size) := by
  have hquote : c ≠ 34 := by
    rintro rfl
    exact absurd h (by decide)
  rw [unquoteChar,if_neg hquote,if_pos h,hr]

lemma unquoteChar_stray {c : UInt8} (h : 128 ≤ c) (hr : firstRune (c :: s) = none) :
    unquoteChar (c :: s) = some (String.utf8EncodeChar '\uFFFD',s) := by
  have hquote : c ≠ 34 := by
    rintro rfl
    exact absurd h (by decide)
  rw [unquoteChar,if_neg hquote,if_pos h,hr]

end body
end Manvi.Encoding
