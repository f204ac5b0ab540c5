import Manvi.Render.Buffer

/-! The painter: the escape sequences that get a terminal from one frame to the next, and a terminal
that reads them. -/
namespace Manvi.Render

/-- What the painter writes: one escape sequence, or one rune with its marks. -/
inductive Out (σ : Type)
  | hideCursor
  | showCursor
  | moveTo (x y : ℤ)
  | style (s : σ)
  | reset
  | put (r : ℤ) (comb : List ℤ)
  | eraseLine
deriving DecidableEq

/-- A row while it is painted: what the terminal is believed to show, what was written, where that
left the cursor, and its style. -/
structure Paint (σ : Type) where
  prev : ℕ → Cell σ
  out : List (Out σ)
  last : Option (ℕ × ℕ)
  style : Option σ

section painter
variable {σ : Type} [DecidableEq σ] (mark : ℤ → Bool) (w y : ℕ) (full : Bool) (cur : ℕ → Cell σ)

def sameCell (a b : Cell σ) : Bool := a.r = b.r ∧ a.comb = b.comb ∧ a.style = b.style

def Paint.applyStyle (p : Paint σ) (s : σ) : Paint σ :=
  if p.style = some s then p else { p with out := p.out ++ [.style s], style := some s }

def Paint.moveTo (p : Paint σ) (x y : ℕ) : Paint σ :=
  if p.last = some (x,y) then p else { p with out := p.out ++ [.moveTo x y] }

def differs (p : Paint σ) (x : ℕ) : Bool := full || !sameCell (cur x) (p.prev x)

def gapTolerance : ℕ := 6

/-- The last column of a run: it takes in short stretches that are the same. -/
def runEnd (changed : ℕ → Bool) : ℕ → ℕ → ℕ → ℕ → ℕ
  | 0,_,last,_ => last
  | fuel+1,x,last,gap =>
    if w ≤ x then last
    else if changed x then runEnd changed fuel (x+1) x 0
    else if gapTolerance < gap+1 then last
    else runEnd changed fuel (x+1) last (gap+1)

def minRun : ℕ := 8

/-- The rest of a row is blanks of one style, enough of them, and not all there already. -/
def erasable (p : Paint σ) (x : ℕ) : Bool :=
  (cur x).r = 32 && (cur x).comb.isEmpty
    && (List.range' x (w-x)).all (fun col => (cur col).r = 32 && (cur col).comb.isEmpty && decide
      ((cur col).style = (cur x).style))
    && decide (minRun ≤ w-x) && (full || (List.range' x (w-x)).any (fun col =>
      !sameCell (cur col) (p.prev col)))

def Paint.eraseRest (p : Paint σ) (x : ℕ) : Paint σ :=
  let p := (p.moveTo x y).applyStyle (cur x).style
  { p with
    out := p.out ++ [.eraseLine], prev := fun i => if x ≤ i ∧ i < w then cur x else p.prev i,
    last := some (x,y) }

/-- One cell is written, and the column behind it. A second half was written with the rune on its
left. -/
def Paint.emit (p : Paint σ) (col : ℕ) : Paint σ × ℕ :=
  if (cur col).isContinuation then (p,col+1)
  else
    let p := p.applyStyle (cur col).style
    let prev := Function.update p.prev col (cur col)
    let prev := if runeWidth mark (cur col).r = 2 ∧ col+1 < w then
      Function.update prev (col+1) (cur (col+1)) else prev
    ({ p with out := p.out ++ [.put (cur col).r (cur col).comb], prev := prev },
      col+max (runeWidth mark (cur col).r) 1)

def Paint.emitRun (stop : ℕ) : ℕ → Paint σ → ℕ → Paint σ × ℕ
  | 0,p,col => (p,col)
  | fuel+1,p,col => if col ≤ stop ∧ col < w then
    Paint.emitRun stop fuel (p.emit mark w cur col).1 (p.emit mark w cur col).2 else (p,col)

def paintRow : ℕ → ℕ → Paint σ → Paint σ
  | 0,_,p => p
  | fuel+1,x,p =>
    if w ≤ x then p
    else if !differs full cur p x then paintRow fuel (x+1) p
    else
      -- a second half cannot be addressed on its own
      let start := if (cur x).isContinuation ∧ 0 < x then x-1 else x
      let stop := runEnd w (differs full cur p) (w-start) start start 0
      if erasable w full cur p start then paintRow fuel w (p.eraseRest w y cur start)
      else
        let run := Paint.emitRun mark w cur stop w (p.moveTo start y) start
        paintRow fuel run.2 { run.1 with last := some (run.2,y) }

end painter

structure Cursor where
  x : ℤ
  y : ℤ
  visible : Bool
deriving DecidableEq

structure Painter (σ : Type) where
  cur : Buffer σ
  prev : Buffer σ
  full : Bool
  lastCursor : Cursor
  painted : Bool

section flush
variable {σ : Type} [DecidableEq σ] (mark : ℤ → Bool) (plain : σ)

def Buffer.line (b : Buffer σ) (y : ℕ) : ℕ → Cell σ := fun x => b.cell x y

/-- The rows of a frame one after another, with what the terminal is then believed to show. -/
def paintRows (cur : Buffer σ) (full : Bool) : List ℕ → Buffer σ → List (Out σ) → Option (ℕ × ℕ) →
    Option σ → Buffer σ × List (Out σ) × Option σ
  | [],prev,out,_,style => (prev,out,style)
  | y :: ys,prev,out,last,style =>
    let p := paintRow mark cur.w.toNat y full (cur.line y) (cur.w.toNat+1) 0 ⟨prev.line y,out,last,
      style⟩
    paintRows cur full ys { prev with
      cell := fun x' y' => if y' = y ∧ 0 ≤ x' then p.prev x'.toNat
        else prev.cell x' y' } p.out p.last p.style

def newPainter (w h : ℤ) : Painter σ :=
  ⟨newBuffer plain w h,newBuffer plain w h,true,⟨0,0,false⟩,false⟩

def Painter.resize (p : Painter σ) (w h : ℤ) : Painter σ :=
  if w = p.cur.w ∧ h = p.cur.h then p
  else { p with cur := p.cur.resize plain w h, prev := p.prev.resize plain w h, full := true }

def Painter.invalidate (p : Painter σ) : Painter σ := { p with full := true }

/-- The style is reset at the end of a frame that set one. -/
def styleEnd : Option σ → List (Out σ)
  | none => []
  | some _ => [.reset]

def caret (cursor : Cursor) : List (Out σ) :=
  if cursor.visible then [.moveTo cursor.x cursor.y,.showCursor] else []

/-- The painter after a flush, and what it wrote, if it wrote. -/
def Painter.flush (p : Painter σ) (cursor : Cursor) : Painter σ × Option (List (Out σ)) :=
  let painted := paintRows mark p.cur p.full (List.range p.cur.h.toNat) p.prev [] none none
  let out := painted.2.1 ++ styleEnd painted.2.2
  if p.painted && !p.full && out.isEmpty && decide (cursor = p.lastCursor) then
    ({ p with prev := painted.1 },none)
  else ({ p with prev := painted.1, full := false, painted := true, lastCursor := cursor },
    some (.hideCursor :: out ++ caret cursor))

end flush

/-- A terminal: the cells it shows by row and column, where its cursor is, and its style. -/
structure Term (σ : Type) where
  w : ℕ
  cell : ℕ → ℕ → Cell σ
  cx : ℕ
  cy : ℕ
  style : σ

section terminal
variable {σ : Type} (mark : ℤ → Bool) (plain broken : σ) (erased : σ → σ)

/-- A row after a rune was put: a wide rune that lost one half leaves a blank. -/
def putRow (row : ℕ → Cell σ) (x wd : ℕ) (c : Cell σ) : ℕ → Cell σ := fun i =>
  if i = x then c
  else if x < i ∧ i < x+wd then ⟨0,[],c.style⟩
  else if i+1 = x ∧ (row x).isContinuation then blankCell broken
  else if i = x+wd ∧ (row i).isContinuation then blankCell broken
  else row i

/-- A row erased to its end, with the background of a style. -/
def eraseRow (row : ℕ → Cell σ) (x : ℕ) (s : σ) : ℕ → Cell σ := fun i =>
  if x ≤ i then blankCell (erased s)
  else if i+1 = x ∧ (row x).isContinuation then blankCell broken
  else row i

/-- The terminal places runes by their width and hangs the marks on the rune they come with; what a
rune past the end of a row does to it is not relied on. -/
def Term.exec (t : Term σ) : Out σ → Term σ
  | .hideCursor => t
  | .showCursor => t
  | .moveTo x y => { t with cx := x.toNat, cy := y.toNat }
  | .style s => { t with style := s }
  | .reset => { t with style := plain }
  | .put r comb =>
    let wd := max (runeWidth mark r) 1
    if r = 0 then t
    else if t.w < t.cx+wd then { t with cell := fun _ _ => blankCell broken }
    else { t with
      cell := Function.update t.cell t.cy (putRow broken (t.cell t.cy) t.cx wd ⟨r,comb,t.style⟩),
      cx := t.cx+wd }
  | .eraseLine => { t with
    cell := Function.update t.cell t.cy (eraseRow broken erased (t.cell t.cy) t.cx t.style) }

/-- A cell of the terminal shows a cell of a frame: rune, marks and style, where an erased blank
stands for a blank of that background. -/
def Shows (c t : Cell σ) : Prop := t = c ∨ (c.r = 32 ∧ c.comb = [] ∧ t = blankCell (erased c.style))

/-- A second half is behind a wide rune. -/
def Halved (row : ℕ → Cell σ) : Prop := ∀ i, (row i).isContinuation = true → 0 < i ∧
    runeWidth mark (row (i-1)).r = 2

/-- A row of a frame: every rune takes a column or two, and a wide one has its second half behind
it, in its own style and with no mark on it: neither a style nor a mark of a second half is ever
written. -/
structure Paired (w : ℕ) (row : ℕ → Cell σ) : Prop where
  half : ∀ i < w, (row i).isContinuation = true → 0 < i ∧ runeWidth mark (row (i-1)).r = 2
  bare : ∀ i < w, (row i).isContinuation = true → row i = ⟨0,[],(row (i-1)).style⟩
  width : ∀ i < w, (row i).isContinuation = false → 1 ≤ runeWidth mark (row i).r ∧
    runeWidth mark (row i).r ≤ 2
  wide : ∀ i < w, runeWidth mark (row i).r = 2 → i+1 < w ∧ (row (i+1)).isContinuation = true

end terminal
end Manvi.Render
