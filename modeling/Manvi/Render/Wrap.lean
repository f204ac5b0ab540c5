import Manvi.Render.Width
import Manvi.Encoding.Space

/-! Wrapping a styled line to a width: words move down whole, and a word too long for a row is
broken. -/
namespace Manvi.Render
open Manvi.Encoding.Runes

/-- Text of one style. -/
structure Span (σ : Type) where
  text : List Char
  style : σ
deriving DecidableEq

abbrev Line (σ : Type) := List (Span σ)

/-- The rows so far, the row in hand, and the word in hand. -/
structure Rows (σ : Type) where
  out : List (Line σ)
  cur : Line σ
  curWidth : ℕ
  pending : Line σ
  pendingWidth : ℕ

section wrap
variable {σ : Type} (mark : ℤ → Bool)

def Line.width (l : Line σ) : ℕ := (l.map (fun s => stringWidth mark s.text)).sum

def Line.push (l : Line σ) (text : List Char) (style : σ) : Line σ :=
  if text = [] then l else l ++ [⟨text,style⟩]

def Rows.flushWord (s : Rows σ) : Rows σ :=
  ⟨s.out,s.cur ++ s.pending,s.curWidth+s.pendingWidth,[],0⟩

def Rows.breakLine (s : Rows σ) : Rows σ := ⟨s.out ++ [s.cur],[],0,s.pending,s.pendingWidth⟩

/-- A blank or a tab. -/
def blank (c : Char) : Bool := c = ' ' || c = '\t'

/-- The words from here on, with the one in hand. -/
def splitFrom : Bool → List Char → List Char → List (List Char)
  | _,word,[] => [word]
  | inSpace,word,c :: rest =>
    if blank c ≠ inSpace then word :: splitFrom (blank c) [c] rest else splitFrom inSpace (word ++
      [c]) rest

/-- The words of a text and the white space between them. -/
def splitKeepSpace : List Char → List (List Char)
  | [] => []
  | c :: rest => splitFrom (blank c) [] (c :: rest)

/-- How many characters of a word are cut off, and the columns they take. -/
def scanFrom (width : ℕ) : ℕ → ℕ → List Char → ℕ × ℕ
  | i,cols,[] => (i,cols)
  | i,cols,r :: rest =>
    if width < cols+charWidth mark r then if i = 0 then (1,charWidth mark r) else (i,cols)
    else scanFrom width (i+1) (cols+charWidth mark r) rest

def hardBreak (word : List Char) (width : ℕ) : ℕ × ℕ := scanFrom mark width 0 0 word

/-- A long word is cut until what is left has room in a row: the rows, what is left, and its width
as carried down. -/
def breakWord (width : ℕ) (style : σ) : ℕ → Rows σ → List Char → ℕ → Rows σ × List Char × ℕ
  | 0,s,word,ww => (s,word,ww)
  | fuel+1,s,word,ww =>
    if width < ww then
      let cut := hardBreak mark word width
      breakWord width style fuel ({s with cur := s.cur.push (word.take cut.1) style}.breakLine)
      (word.drop cut.1) (ww-cut.2)
    else (s,word,ww)

/-- The same, with what is left measured at every cut. -/
def breakMeasured (width : ℕ) (style : σ) : ℕ → Rows σ → List Char → Rows σ × List Char × ℕ
  | 0,s,word => (s,word,stringWidth mark word)
  | fuel+1,s,word =>
    if width < stringWidth mark word then
      let head := truncateWidth mark word width []
      let head := if head = [] then word.take 1 else head
      breakMeasured width style fuel ({s with cur := s.cur.push head style}.breakLine)
      (word.drop head.length)
    else (s,word,stringWidth mark word)

/-- One word of a span, with a way to break a long word. -/
def wrapWord (breaking : σ → Rows σ → List Char → Rows σ × List Char × ℕ) (width : ℕ) (style : σ)
    (s : Rows σ) (word : List Char) : Rows σ :=
  let ww := stringWidth mark word
  if trimSpace word = [] ∧ word ≠ [] then
    let s := s.flushWord
    if s.curWidth+ww ≤ width then {s with cur := s.cur.push word style, curWidth := s.curWidth+ww}
    else if 0 < s.curWidth then s.breakLine else s
  else
    let broken := if width < s.pendingWidth+ww then
        let s := s.flushWord
        breaking style (if 0 < s.curWidth then s.breakLine else s) word
      else (s,word,ww)
    let s := broken.1
    let word := broken.2.1
    let ww := broken.2.2
    let s := if width < s.curWidth+s.pendingWidth+ww then if 0 < s.curWidth then s.breakLine else s
      else s
    if word ≠ [] then {s with
      pending := s.pending.push word style, pendingWidth := s.pendingWidth+ww} else s

def trimRight (text : List Char) : List Char := (text.reverse.dropWhile blank).reverse

/-- The spans from the last one on without white space behind them. -/
def trimBack : Line σ → Line σ
  | [] => []
  | last :: rest =>
    let trimmed := trimRight last.text
    if trimmed = last.text then last :: rest
    else if trimmed = [] then trimBack rest
    else ⟨trimmed,last.style⟩ :: rest

def trimTrailingSpace (l : Line σ) : Line σ := (trimBack l.reverse).reverse

def wrapWith (breaking : σ → Rows σ → List Char → Rows σ × List Char × ℕ) (l : Line σ) (width : ℕ) :
    List (Line σ) :=
  if width = 0 then []
  else if l.width mark ≤ width then [l]
  else
    let s := l.foldl (fun s span => (splitKeepSpace span.text).foldl
      (wrapWord mark breaking width span.style) s) ⟨[],[],0,[],0⟩
    let s := s.flushWord
    let out := if s.cur ≠ [] ∨ s.out = [] then s.out ++ [s.cur] else s.out
    out.map trimTrailingSpace

/-- A word is given as many cuts as it has characters. -/
def wrap (l : Line σ) (width : ℕ) : List (Line σ) :=
  wrapWith mark (fun style s word => breakWord mark width style word.length s word
    (stringWidth mark word)) l width

def wrapQuadratic (l : Line σ) (width : ℕ) : List (Line σ) :=
  wrapWith mark (fun style s word => breakMeasured mark width style word.length s word) l width

end wrap
end Manvi.Render
