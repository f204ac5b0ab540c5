import Manvi.Render.Width

/-! A frame buffer: a grid of cells that draws write to, clipped to its bounds. -/
namespace Manvi.Render

/-- One position of the screen. A rune of zero is the second half of a wide rune. -/
structure Cell (σ : Type) where
  r : ℤ
  comb : List ℤ
  style : σ

structure Rect where
  x : ℤ
  y : ℤ
  w : ℤ
  h : ℤ

/-- The cell at a column and a row counts where it is within the bounds. -/
structure Buffer (σ : Type) where
  w : ℤ
  h : ℤ
  cell : ℤ → ℤ → Cell σ

def maxCombPerCell : ℕ := 30

/-- What a rune is in a string. -/
def encoded (r : ℤ) : ℤ := if (0 ≤ r ∧ r < 0xD800) ∨ (0xDFFF < r ∧ r ≤ 0x10FFFF) then r else 0xFFFD

/-- How many bytes a rune of a string takes. -/
def runeLen (r : ℤ) : ℕ := if r < 0x80 then 1 else if r < 0x800 then 2 else if r < 0x10000 then
    3 else 4

section cell
variable {σ : Type}

def Cell.addMark (c : Cell σ) (r : ℤ) : Cell σ :=
  if maxCombPerCell ≤ (c.comb.map runeLen).sum ∧ maxCombPerCell ≤ c.comb.length then
    c else {c with comb := c.comb ++ [encoded r]}

def blankCell (s : σ) : Cell σ := ⟨32,[],s⟩

def Cell.isContinuation (c : Cell σ) : Bool := c.r = 0

end cell

def Rect.right (r : Rect) : ℤ := r.x+r.w

def Rect.bottom (r : Rect) : ℤ := r.y+r.h

/-- The numbers from one up to another. -/
def upTo (lo hi : ℤ) : List ℤ := (List.range (hi-lo).toNat).map (fun n : ℕ => lo+(n : ℤ))

def isControl (r : ℤ) : Bool := (0 ≤ r && r < 0x20) || (0x7f ≤ r && r < 0xa0)

section buffer
variable {σ : Type} (mark : ℤ → Bool) (plain : σ)

def Buffer.clear (b : Buffer σ) (s : σ) : Buffer σ := {b with cell := fun _ _ => blankCell s}

def newBuffer (w h : ℤ) : Buffer σ := ⟨max w 0,max h 0,fun _ _ => blankCell plain⟩

def Buffer.resize (b : Buffer σ) (w h : ℤ) : Buffer σ :=
  if b.w = max w 0 ∧ b.h = max h 0 then b else ⟨max w 0,max h 0,fun _ _ => blankCell plain⟩

def Buffer.put (b : Buffer σ) (x y : ℤ) (c : Cell σ) : Buffer σ :=
  {b with cell := fun x' y' => if x' = x ∧ y' = y then c else b.cell x' y'}

/-- One rune is written: the buffer, and the columns it took. -/
def Buffer.setRune (b : Buffer σ) (x y r : ℤ) (s : σ) : Buffer σ × ℕ :=
  if y < 0 ∨ b.h ≤ y ∨ b.w ≤ x then (b,0)
  else
    let w := runeWidth mark r
    if w = 0 then
      if isControl r ∨ r < 0x20 then (b,0)
      else if 0 ≤ x-1 ∧ x-1 < b.w then (b.put (x-1) y ((b.cell (x-1) y).addMark r),0)
      else (b,0)
    else if x < 0 then (b,w)
    else if w = 2 then
      if b.w ≤ x+1 then (b.put x y ⟨32,[],s⟩,1)
      else ((b.put x y ⟨r,[],s⟩).put (x+1) y ⟨0,[],s⟩,2)
    else (b.put x y ⟨r,[],s⟩,1)

/-- The runes of a string from one on, with the columns used before it. -/
def Buffer.setFrom (b : Buffer σ) (x y : ℤ) (s : σ) : ℕ → List ℤ → Buffer σ × ℕ
  | used,[] => (b,used)
  | used,r :: rest =>
    if b.w ≤ x+used then (b,used)
    else
      let drawn := b.setRune mark (x+used) y r s
      drawn.1.setFrom x y s (used+drawn.2) rest

def Buffer.setString (b : Buffer σ) (x y : ℤ) (text : List ℤ) (s : σ) : Buffer σ × ℕ :=
  b.setFrom mark x y s 0 text

def Buffer.fill (b : Buffer σ) (r : Rect) (ch : ℤ) (s : σ) : Buffer σ :=
  (upTo r.y r.bottom).foldl (fun b y =>
    (upTo r.x r.right).foldl (fun b x => (b.setRune mark x y ch s).1) b) b

def Buffer.restyle (b : Buffer σ) (x y : ℤ) (s : σ) : Buffer σ :=
  if x < 0 ∨ b.w ≤ x then b else b.put x y {b.cell x y with style := s}

def Buffer.fillStyle (b : Buffer σ) (r : Rect) (s : σ) : Buffer σ :=
  (upTo r.y r.bottom).foldl (fun b y => if y < 0 ∨ b.h ≤ y then
    b else (upTo r.x r.right).foldl (fun b x => b.restyle x y s) b) b

end buffer

/-- The calls that draw. -/
inductive Call (σ : Type) where
  | setRune (x y r : ℤ) (s : σ)
  | setString (x y : ℤ) (text : List ℤ) (s : σ)
  | fill (rect : Rect) (ch : ℤ) (s : σ)
  | fillStyle (rect : Rect) (s : σ)
  | clear (s : σ)
  | resize (w h : ℤ)

section call
variable {σ : Type} (mark : ℤ → Bool) (plain : σ)

def Buffer.perform (b : Buffer σ) : Call σ → Buffer σ
  | .setRune x y r s => (b.setRune mark x y r s).1
  | .setString x y text s => (b.setString mark x y text s).1
  | .fill rect ch s => b.fill mark rect ch s
  | .fillStyle rect s => b.fillStyle rect s
  | .clear s => b.clear s
  | .resize w h => b.resize plain w h

end call

/-! What is drawn rune by rune, and where the last character stands. -/

/-- One rune at a place. -/
structure Draw where
  x : ℤ
  y : ℤ
  r : ℤ

section draws
variable {σ : Type} (mark : ℤ → Bool) (w h : ℤ)

/-- The columns a rune takes in a buffer of a size. -/
def advance (x y r : ℤ) : ℕ :=
  if y < 0 ∨ h ≤ y ∨ w ≤ x then 0
  else if runeWidth mark r = 0 then 0
  else if x < 0 then runeWidth mark r
  else if runeWidth mark r = 2 then if w ≤ x+1 then 1 else 2
  else 1

def stringDraws (y : ℤ) : ℤ → List ℤ → List Draw
  | _,[] => []
  | x,r :: rest => ⟨x,y,r⟩ :: stringDraws y (x+advance mark w h x y r) rest

/-- The runes a call draws, in order. -/
def draws : Call σ → List Draw
  | .setRune x y r _ => [⟨x,y,r⟩]
  | .setString x y text _ => stringDraws mark w h y x text
  | .fill rect ch _ => (upTo rect.y rect.bottom).flatMap (fun y => (upTo rect.x rect.right).map
    (fun x => ⟨x,y,ch⟩))
  | _ => []

/-- A mark: no column of its own, and no control character. -/
def isMark (r : ℤ) : Bool := runeWidth mark r = 0 && !(isControl r || r < 0x20)

/-- Where the last character stands, and its columns. -/
abbrev Last := Option (ℤ × ℤ × ℕ)

/-- A draw of a character that is stored makes it the last one; one that is not leaves none. -/
def lastAfter (last : Last) (d : Draw) : Last :=
  if runeWidth mark d.r = 0 then last
  else if 0 ≤ d.y ∧ d.y < h ∧ 0 ≤ d.x ∧ d.x+runeWidth mark d.r ≤ w then
    some (d.x,d.y,runeWidth mark d.r)
  else none

/-- The character a mark is drawn directly after. -/
def follows (last : Last) (d : Draw) : Option (ℤ × ℤ × ℕ) :=
  last.filter (fun l => d.x = l.1+l.2.2 && d.y = l.2.1 && isMark mark d.r)

end draws
end Manvi.Render
