import Mathlib

/-! How many columns of a terminal a character takes. -/
namespace Manvi.Render

/-- The characters that take two columns, as ranges in order. -/
def wideRanges : List (ℤ × ℤ) := [
  (0x1100,0x115F),(0x231A,0x231B),(0x2329,0x232A),(0x23E9,0x23EC),(0x23F0,0x23F0),(0x23F3,0x23F3),
  (0x25FD,0x25FE),
  (0x2614,0x2615),(0x2648,0x2653),(0x267F,0x267F),(0x2693,0x2693),(0x26A1,0x26A1),(0x26AA,0x26AB),
  (0x26BD,0x26BE),
  (0x26C4,0x26C5),(0x26CE,0x26CE),(0x26D4,0x26D4),(0x26EA,0x26EA),(0x26F2,0x26F3),(0x26F5,0x26F5),
  (0x26FA,0x26FA),
  (0x26FD,0x26FD),(0x2705,0x2705),(0x270A,0x270B),(0x2728,0x2728),(0x274C,0x274C),(0x274E,0x274E),
  (0x2753,0x2755),
  (0x2757,0x2757),(0x2795,0x2797),(0x27B0,0x27B0),(0x27BF,0x27BF),(0x2B1B,0x2B1C),(0x2B50,0x2B50),
  (0x2B55,0x2B55),
  (0x2E80,0x2E99),(0x2E9B,0x2EF3),(0x2F00,0x2FD5),(0x2FF0,0x2FFB),(0x3000,0x303E),(0x3041,0x3096),
  (0x3099,0x30FF),
  (0x3105,0x312F),(0x3131,0x318E),(0x3190,0x31E3),(0x31F0,0x321E),(0x3220,0x3247),(0x3250,0x4DBF),
  (0x4E00,0xA48C),
  (0xA490,0xA4C6),(0xA960,0xA97C),(0xAC00,0xD7A3),(0xF900,0xFAFF),(0xFE10,0xFE19),(0xFE30,0xFE52),
  (0xFE54,0xFE66),
  (0xFE68,0xFE6B),(0xFF01,0xFF60),(0xFFE0,0xFFE6),(0x16FE0,0x16FE4),(0x16FF0,0x16FF1),
  (0x17000,0x187F7),(0x18800,0x18CD5),
  (0x18D00,0x18D08),(0x1B000,0x1B152),(0x1B164,0x1B167),(0x1B170,0x1B2FB),(0x1F004,0x1F004),
  (0x1F0CF,0x1F0CF),
  (0x1F18E,0x1F18E),(0x1F191,0x1F19A),(0x1F200,0x1F320),(0x1F32D,0x1F335),(0x1F337,0x1F37C),
  (0x1F37E,0x1F393),
  (0x1F3A0,0x1F3CA),(0x1F3CF,0x1F3D3),(0x1F3E0,0x1F3F0),(0x1F3F4,0x1F3F4),(0x1F3F8,0x1F43E),
  (0x1F440,0x1F440),
  (0x1F442,0x1F4FC),(0x1F4FF,0x1F53D),(0x1F54B,0x1F54E),(0x1F550,0x1F567),(0x1F57A,0x1F57A),
  (0x1F595,0x1F596),
  (0x1F5A4,0x1F5A4),(0x1F5FB,0x1F64F),(0x1F680,0x1F6C5),(0x1F6CC,0x1F6CC),(0x1F6D0,0x1F6D2),
  (0x1F6D5,0x1F6D7),
  (0x1F6EB,0x1F6EC),(0x1F6F4,0x1F6FC),(0x1F7E0,0x1F7EB),(0x1F90C,0x1F93A),(0x1F93C,0x1F945),
  (0x1F947,0x1F978),
  (0x1F97A,0x1F9CB),(0x1F9CD,0x1F9FF),(0x1FA70,0x1FA74),(0x1FA78,0x1FA7A),(0x1FA80,0x1FA86),
  (0x1FA90,0x1FAA8),
  (0x1FAB0,0x1FAB6),(0x1FAC0,0x1FAC2),(0x1FAD0,0x1FAD6),(0x20000,0x2FFFD),(0x30000,0x3FFFD)]

/-- Bisection between two places of the table, in so many steps at most. -/
def bisect (r : ℤ) (ranges : List (ℤ × ℤ)) : ℕ → ℤ → ℤ → Bool
  | 0,_,_ => false
  | fuel+1,lo,hi =>
    if lo ≤ hi then
      let mid := (lo+hi)/2
      let range := ranges.getD mid.toNat (0,0)
      if r < range.1 then bisect r ranges fuel lo (mid-1)
      else if range.2 < r then bisect r ranges fuel (mid+1) hi
      else true
    else false

def inRanges (r : ℤ) (ranges : List (ℤ × ℤ)) : Bool :=
  bisect r ranges ranges.length 0 (ranges.length-1)

section width
variable (mark : ℤ → Bool)

/-- The columns of a rune. Which runes are combining, enclosing and format characters is a
parameter. -/
def runeWidth (r : ℤ) : ℕ :=
  if r = 0 then 0
  else if r < 0x20 ∨ (0x7f ≤ r ∧ r < 0xa0) then 0
  else if r < 0x300 then 1
  else if mark r then 0
  else if inRanges r wideRanges then 2
  else 1

/-- The combining marks of one block. -/
def accents (r : ℤ) : Bool := 0x300 ≤ r && r ≤ 0x36f

def charWidth (c : Char) : ℕ := runeWidth mark c.toNat

def stringWidth (s : List Char) : ℕ := (s.map (charWidth mark)).sum

@[simp] lemma stringWidth_nil : stringWidth mark [] = 0 := rfl

@[simp] lemma stringWidth_cons (c : Char) (s : List Char) :
    stringWidth mark (c :: s) = charWidth mark c+stringWidth mark s := by
  rw [stringWidth,List.map_cons,List.sum_cons,stringWidth]

@[simp] lemma stringWidth_append (s t : List Char) :
    stringWidth mark (s ++ t) = stringWidth mark s+stringWidth mark t := by
  rw [stringWidth,List.map_append,List.sum_append,stringWidth,stringWidth]

variable {mark} in
lemma runeWidth_le (r : ℤ) : runeWidth mark r ≤ 2 := by
  unfold runeWidth
  repeat' split
  all_goals omega

variable {mark} in
lemma runeWidth_low {r : ℤ} (h : r < 0x300) : runeWidth mark r ≤ 1 := by
  unfold runeWidth
  rw [if_pos h]
  split
  · exact Nat.zero_le _
  split
  · exact Nat.zero_le _
  · exact Nat.le_refl _

/-- The first characters of a text, as many as have room in a budget of which so much is used. -/
def fitting (budget : ℕ) : ℕ → List Char → List Char
  | _,[] => []
  | used,r :: rest => if budget < used+charWidth mark r then
    [] else r :: fitting budget (used+charWidth mark r) rest

def truncateWidth (s : List Char) (w : ℕ) (tail : List Char) : List Char :=
  if w = 0 then []
  else if stringWidth mark s ≤ w then s
  else fitting mark (w-stringWidth mark tail) 0 s ++ tail

end width
end Manvi.Render
