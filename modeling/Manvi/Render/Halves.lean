import Manvi.Render.Buffer

/-! When a frame buffer holds no half characters: what is drawn does not cut a wide character that
is there. -/
namespace Manvi.Render

section rows
variable (mark : ℤ → Bool) (w : ℤ)

def wide (r : ℤ) : Prop := runeWidth mark r = 2

instance (r : ℤ) : Decidable (wide mark r) := inferInstanceAs (Decidable (_ = _))

/-- A draw that writes a character into its row. -/
def writes (d : Draw) : Bool := runeWidth mark d.r ≠ 0 && 0 ≤ d.x && d.x < w

/-- The column behind a character that is written. -/
def behind (d : Draw) : ℤ := if runeWidth mark d.r = 2 ∧ d.x+1 < w then d.x+2 else d.x+1

/-- What a draw makes of the runes of its row. -/
def rowRunes (f : ℤ → ℤ) (d : Draw) : ℤ → ℤ :=
  if writes mark w d then
    if runeWidth mark d.r = 2 then
      if w ≤ d.x+1 then Function.update f d.x 32
        else Function.update (Function.update f d.x d.r) (d.x+1) 0
    else Function.update f d.x d.r
  else f

/-- Each of some characters begins where the one before ends. -/
def apart : List Draw → Bool
  | d :: e :: rest => behind mark w d = e.x && apart (e :: rest)
  | _ => true

/-- The column behind the last of some characters. -/
def endOf (d : Draw) (rest : List Draw) : ℤ :=
  behind mark w ((d :: rest).getLast (List.cons_ne_nil _ _))

/-- The characters drawn into a row stand side by side, and cut no wide character at either end. -/
def rowEdges (f : ℤ → ℤ) (ds : List Draw) : Bool :=
  match ds.filter (writes mark w) with
  | [] => true
  | d :: rest => apart mark w (d :: rest) && f d.x ≠ 0 && (w ≤ endOf mark w d rest || f
    (endOf mark w d rest) ≠ 0)

/-- The first columns of a row hold whole characters. -/
def Upto (f : ℤ → ℤ) (p : ℤ) : Prop := ∀ x, 0 ≤ x → x < p →
  (wide mark (f x) → x+1 < p ∧ f (x+1) = 0) ∧ (f x = 0 → 0 < x ∧ wide mark (f (x-1)))

variable {mark w} {f g : ℤ → ℤ} {p : ℤ} {d : Draw} {ds : List Draw}

lemma not_wide_zero : ¬ wide mark 0 := by
  rw [wide,runeWidth,if_pos rfl]
  decide

lemma not_wide_blank : ¬ wide mark 32 := by
  have h := @runeWidth_low mark 32 (by decide)
  rw [wide]
  omega

lemma writes_iff : writes mark w d = true ↔ runeWidth mark d.r ≠ 0 ∧ 0 ≤ d.x ∧ d.x < w := by
  simp [writes,and_assoc]

lemma behind_bounds (h : writes mark w d = true) : d.x < behind mark w d ∧ behind mark w d ≤ w := by
  obtain ⟨-,-,hw⟩ := writes_iff.mp h
  unfold behind
  split
  · omega
  · omega

/-- A row without a half behind some columns holds whole characters in them. -/
lemma Upto.shorten (h : Upto mark f w) (hp : p ≤ w) (hne : f p ≠ 0) : Upto mark f p := by
  intro x hx hlt
  obtain ⟨hwide,hhalf⟩ := h x hx (by omega)
  refine ⟨fun hw => ?_,hhalf⟩
  obtain ⟨-,hzero⟩ := hwide hw
  refine ⟨?_,hzero⟩
  by_contra hnot
  have heq : x+1 = p := by omega
  rw [heq] at hzero
  exact hne hzero

/-- A character behind whole characters makes more of them. -/
lemma Upto.draw (h : Upto mark f p) (hd : writes mark w d = true) (hx : d.x = p) :
    Upto mark (rowRunes mark w f d) (behind mark w d) := by
  obtain ⟨hne,h0,hw⟩ := writes_iff.mp hd
  rw [rowRunes,if_pos hd,behind]
  have hzero : d.r ≠ 0 := by
    intro hr
    rw [hr,runeWidth,if_pos rfl] at hne
    exact hne rfl
  have hbefore : ∀ c, c ≠ 0 → ∀ x, 0 ≤ x → x < d.x → (wide mark (Function.update f d.x c x) →
    x+1 < d.x ∧ Function.update f d.x c (x+1) = 0)
      ∧ (Function.update f d.x c x = 0 → 0 < x ∧ wide mark (Function.update f d.x c (x-1))) := by
    intro c hc x hx0 hlt
    obtain ⟨hwide,hhalf⟩ := h x hx0 (by omega)
    have hsame : ∀ y, y < d.x → Function.update f d.x c y = f y :=
      fun y hy => Function.update_of_ne (by omega) c f
    rw [hsame x hlt,hsame (x-1) (by omega)]
    refine ⟨fun hx => ?_,hhalf⟩
    obtain ⟨hless,hz⟩ := hwide hx
    rw [hsame (x+1) (by omega)]
    exact ⟨by omega,hz⟩
  by_cases hwd : runeWidth mark d.r = 2
  · by_cases hedge : w ≤ d.x+1
    · rw [if_pos hwd,if_pos hedge,if_neg (by omega)]
      intro x hx0 hlt
      obtain hlt | rfl : x < d.x ∨ x = d.x := by omega
      · obtain ⟨ha,hb⟩ := hbefore 32 (by decide) x hx0 hlt
        exact ⟨fun hx => ⟨by have := (ha hx).1; omega,(ha hx).2⟩,hb⟩
      · rw [Function.update_self]
        exact ⟨fun hx => absurd hx not_wide_blank,fun hx => absurd hx (by decide)⟩
    · rw [if_pos hwd,if_neg hedge,if_pos ⟨hwd,by omega⟩]
      intro x hx0 hlt
      obtain hlt | rfl | rfl : x < d.x ∨ x = d.x ∨ x = d.x+1 := by omega
      · obtain ⟨ha,hb⟩ := hbefore d.r hzero x hx0 hlt
        rw [Function.update_of_ne (by omega),Function.update_of_ne (by omega : x-1 ≠ d.x+1)]
        refine ⟨fun hx => ?_,hb⟩
        rw [Function.update_of_ne (by have := (ha hx).1; omega)]
        exact ⟨by have := (ha hx).1; omega,(ha hx).2⟩
      · rw [Function.update_of_ne (by omega),Function.update_self,Function.update_self]
        exact ⟨fun _ => ⟨by omega,rfl⟩,fun hx => absurd hx hzero⟩
      · rw [Function.update_self,Function.update_of_ne (by omega : d.x+1-1 ≠ d.x+1),
          show d.x+1-1 = d.x by omega,Function.update_self]
        exact ⟨fun hx => absurd hx not_wide_zero,fun _ => ⟨by omega,hwd⟩⟩
  · rw [if_neg hwd,if_neg (fun hx => hwd hx.1)]
    intro x hx0 hlt
    obtain hlt | rfl : x < d.x ∨ x = d.x := by omega
    · obtain ⟨ha,hb⟩ := hbefore d.r hzero x hx0 hlt
      exact ⟨fun hx => ⟨by have := (ha hx).1; omega,(ha hx).2⟩,hb⟩
    · rw [Function.update_self]
      exact ⟨fun hx => absurd hx hwd,fun hx => absurd hx hzero⟩

/-- A character changes nothing behind it. -/
lemma rowRunes_behind (hd : writes mark w d = true) {x : ℤ} (hx : behind mark w d ≤ x) :
    rowRunes mark w f d x = f x := by
  have hb := behind_bounds hd
  rw [rowRunes,if_pos hd]
  by_cases hwd : runeWidth mark d.r = 2
  · rw [if_pos hwd]
    by_cases hedge : w ≤ d.x+1
    · rw [if_pos hedge,Function.update_of_ne (by omega)]
    · rw [behind,if_pos ⟨hwd,by omega⟩] at hx
      rw [if_neg hedge,Function.update_of_ne (by omega),Function.update_of_ne (by omega)]
  · rw [if_neg hwd,Function.update_of_ne (by omega)]

/-- Characters side by side behind whole characters make more of them, and change nothing behind
them. -/
lemma Upto.draws (h : Upto mark f d.x) (hall : ∀ e ∈ d :: ds, writes mark w e = true)
    (hapart : apart mark w (d :: ds) = true) :
    Upto mark ((d :: ds).foldl (rowRunes mark w) f) (endOf mark w d ds) ∧ d.x < endOf mark w d ds ∧
    endOf mark w d ds ≤ w
      ∧ ∀ x, endOf mark w d ds ≤ x → (d :: ds).foldl (rowRunes mark w) f x = f x := by
  induction ds generalizing d f with
  | nil =>
    have hd := hall d List.mem_cons_self
    exact ⟨h.draw hd rfl,(behind_bounds hd).1,(behind_bounds hd).2,
      fun x hx => rowRunes_behind hd hx⟩
  | cons e ds ih =>
    have hd := hall d List.mem_cons_self
    have hnext : behind mark w d = e.x ∧
      apart mark w (e :: ds) = true := by simpa [apart] using hapart
    have hdrawn := h.draw hd rfl
    rw [hnext.1] at hdrawn
    obtain ⟨hupto,hlt,hle,hrest⟩ :=
      ih hdrawn (fun c hc => hall c (List.mem_cons_of_mem _ hc)) hnext.2
    have hb := behind_bounds hd
    have hend : endOf mark w d (e :: ds) = endOf mark w e ds := rfl
    refine ⟨hupto,by omega,hle,fun x hx => (hrest x hx).trans (rowRunes_behind hd ?_)⟩
    omega

/-- Whole characters are left behind by characters that cut none. -/
lemma Upto.row (h : Upto mark f w) (hedges : rowEdges mark w f ds = true) :
    Upto mark (ds.foldl (rowRunes mark w) f) w := by
  have hskip : ds.foldl (rowRunes mark w) f = (ds.filter (writes mark w)).foldl
    (rowRunes mark w) f := by
    clear h hedges
    induction ds generalizing f with
    | nil => rfl
    | cons d ds ih =>
      by_cases hd : writes mark w d = true
      · rw [List.filter_cons_of_pos hd,List.foldl_cons,List.foldl_cons,ih]
      · rw [List.filter_cons_of_neg hd,List.foldl_cons,ih,rowRunes,if_neg hd]
  have hall : ∀ e ∈ ds.filter (writes mark w), writes mark w e = true :=
    fun e he => (List.mem_filter.mp he).2
  rw [hskip]
  rw [rowEdges] at hedges
  generalize ds.filter (writes mark w) = es at hedges hall ⊢
  cases es with
  | nil => exact h
  | cons d rest =>
    have hcond : (apart mark w (d :: rest) = true ∧ f d.x ≠ 0) ∧
      (w ≤ endOf mark w d rest ∨ f (endOf mark w d rest) ≠ 0) := by
      simpa using hedges
    obtain ⟨⟨hapart,hfirst⟩,hlast⟩ := hcond
    obtain ⟨-,h0,hw⟩ := writes_iff.mp (hall d List.mem_cons_self)
    obtain ⟨hupto,hlt,hle,hrest⟩ := (h.shorten (by omega) hfirst).draws hall hapart
    intro x hx0 hx
    obtain hin | hout : x < endOf mark w d rest ∨ endOf mark w d rest ≤ x := by omega
    · obtain ⟨hwide,hhalf⟩ := hupto x hx0 hin
      exact ⟨fun hr => ⟨by have := (hwide hr).1; omega,(hwide hr).2⟩,hhalf⟩
    · obtain ⟨hwide,hhalf⟩ := h x hx0 hx
      rw [hrest x hout,hrest (x+1) (by omega)]
      refine ⟨hwide,fun hr => ?_⟩
      obtain ⟨hpos,hw'⟩ := hhalf hr
      have hpast : x ≠ endOf mark w d rest := by
        rintro rfl
        exact hlast.resolve_left (by omega) hr
      rw [hrest (x-1) (by omega)]
      exact ⟨hpos,hw'⟩

end rows

section buffers
variable {σ : Type} (mark : ℤ → Bool) (plain : σ)

/-- The runes of a row. -/
def Buffer.row (b : Buffer σ) (y : ℤ) : ℤ → ℤ := fun x => (b.cell x y).r

/-- A cell without a control character. The rune zero stands for the second half of a wide rune. -/
def Cell.Clean (c : Cell σ) : Prop := (c.r = 0 ∨ isControl c.r = false) ∧ ∀ m ∈ c.comb,
    isControl m = false

/-- A buffer that holds no half of a character and no control character. -/
structure Whole (b : Buffer σ) : Prop where
  followed : ∀ x y, 0 ≤ x → x < b.w → 0 ≤ y → y < b.h → runeWidth mark (b.cell x y).r = 2 →
    x+1 < b.w ∧ (b.cell (x+1) y).isContinuation = true
  follows : ∀ x y, 0 ≤ x → x < b.w → 0 ≤ y → y < b.h → (b.cell x y).isContinuation = true →
    0 < x ∧ runeWidth mark (b.cell (x-1) y).r = 2
  clean : ∀ x y, 0 ≤ x → x < b.w → 0 ≤ y → y < b.h → (b.cell x y).Clean

/-- What a call draws cuts no wide character in any row. -/
def edges (b : Buffer σ) (c : Call σ) : Bool :=
  (upTo 0 b.h).all (fun y =>
    rowEdges mark b.w (b.row y) ((draws mark b.w b.h c).filter (fun d => d.y = y)))

/-- A mark directly after a character is after a narrow one that is not in the last column. -/
def marksFit (w h : ℤ) : Last → List Draw → Bool
  | _,[] => true
  | last,d :: ds => (match follows mark last d with
    | none => true
    | some l => l.2.2 = 1 && l.1+1 < w) && marksFit w h (lastAfter mark w h last d) ds

def drawAll (s : σ) (b : Buffer σ) (ds : List Draw) : Buffer σ :=
  ds.foldl (fun b d => (b.setRune mark d.x d.y d.r s).1) b

/-- Every mark directly after a character goes to the cell of that character. -/
def Attached (s : σ) : Buffer σ → Last → List Draw → Prop
  | _,_,[] => True
  | b,last,d :: ds => (∀ l, follows mark last d = some l →
      (b.setRune mark d.x d.y d.r s).1.cell l.1 l.2.1 = (b.cell l.1 l.2.1).addMark d.r)
    ∧ Attached s (b.setRune mark d.x d.y d.r s).1 (lastAfter mark b.w b.h last d) ds

variable {mark} {b : Buffer σ} {x y r : ℤ} {s : σ}

lemma put_cell (b : Buffer σ) (x y : ℤ) (c : Cell σ) (x' y' : ℤ) :
    (b.put x y c).cell x' y' = if x' = x ∧ y' = y then c else b.cell x' y' := rfl

lemma put_row (b : Buffer σ) (x y : ℤ) (c : Cell σ) :
    (b.put x y c).row y = Function.update (b.row y) x c.r := by
  funext x'
  rw [Buffer.row,put_cell,Function.update_apply]
  by_cases h : x' = x
  · rw [if_pos ⟨h,rfl⟩,if_pos h]
  · rw [if_neg (fun h' => h h'.1),if_neg h,Buffer.row]

lemma put_row_other (b : Buffer σ) (x : ℤ) {y y' : ℤ} (c : Cell σ) (h : y' ≠ y) :
    (b.put x y c).row y' = b.row y' := by
  funext x'
  rw [Buffer.row,put_cell,if_neg (fun h' => h h'.2),Buffer.row]

lemma addMark_r (c : Cell σ) (r : ℤ) : (c.addMark r).r = c.r := by
  rw [Cell.addMark]
  split
  · rfl
  · rfl

lemma setRune_size (b : Buffer σ) (x y r : ℤ) (s : σ) :
    (b.setRune mark x y r s).1.w = b.w ∧ (b.setRune mark x y r s).1.h = b.h := by
  unfold Buffer.setRune
  dsimp only
  repeat' split
  all_goals exact ⟨rfl,rfl⟩

lemma setRune_advance (b : Buffer σ) (x y r : ℤ) (s : σ) :
    (b.setRune mark x y r s).2 = advance mark b.w b.h x y r := by
  unfold Buffer.setRune advance
  dsimp only
  repeat' split
  all_goals rfl

/-- Drawing changes the runes of its own row, and of no other. -/
lemma setRune_row (b : Buffer σ) (x : ℤ) {y : ℤ} (r : ℤ) (s : σ) (h0 : 0 ≤ y) (hh : y < b.h) :
    (b.setRune mark x y r s).1.row y = rowRunes mark b.w (b.row y) ⟨x,y,r⟩ := by
  by_cases hwrites : writes mark b.w ⟨x,y,r⟩ = true
  · obtain ⟨hne,hx0,hx⟩ := writes_iff.mp hwrites
    dsimp only at hne hx0 hx
    rw [Buffer.setRune,if_neg (by omega),rowRunes,if_pos hwrites]
    dsimp only
    rw [if_neg hne,if_neg (by omega)]
    split
    · split
      · rw [put_row]
      · rw [put_row,put_row]
    · rw [put_row]
  · rw [rowRunes,if_neg hwrites,Buffer.setRune]
    split
    · rfl
    dsimp only
    split
    · split
      · rfl
      split
      · rw [put_row,addMark_r]
        exact Function.update_eq_self _ _
      · rfl
    · rename_i hin hne
      have hneg : x < 0 := by
        by_contra hnot
        exact hwrites (writes_iff.mpr ⟨hne,by simpa using hnot,by simp only; omega⟩)
      rw [if_pos hneg]

lemma setRune_row_other (b : Buffer σ) (x : ℤ) {y y' : ℤ} (r : ℤ) (s : σ) (h : y' ≠ y) :
    (b.setRune mark x y r s).1.row y' = b.row y' := by
  unfold Buffer.setRune
  dsimp only
  repeat' split
  all_goals first | rfl | simp only [put_row_other _ _ _ h]

lemma drawAll_size (s : σ) (b : Buffer σ) (ds : List Draw) :
    (drawAll mark s b ds).w = b.w ∧ (drawAll mark s b ds).h = b.h := by
  induction ds generalizing b with
  | nil => exact ⟨rfl,rfl⟩
  | cons d ds ih =>
    have hsize := @setRune_size σ mark b d.x d.y d.r s
    have hrest := ih (b.setRune mark d.x d.y d.r s).1
    exact ⟨hrest.1.trans hsize.1,hrest.2.trans hsize.2⟩

/-- The runes of a row come from the draws of that row. -/
lemma drawAll_row (s : σ) (b : Buffer σ) (ds : List Draw) (h0 : 0 ≤ y) (hh : y < b.h) :
    (drawAll mark s b ds).row y = (ds.filter (fun d => d.y = y)).foldl (rowRunes mark b.w)
    (b.row y) := by
  induction ds generalizing b with
  | nil => rfl
  | cons d ds ih =>
    have hsize := @setRune_size σ mark b d.x d.y d.r s
    have hrest := ih (b.setRune mark d.x d.y d.r s).1 (by omega)
    rw [show drawAll mark s b (d :: ds) = drawAll mark s
      (b.setRune mark d.x d.y d.r s).1 ds from rfl,hrest,hsize.1]
    by_cases hy : d.y = y
    · rw [List.filter_cons_of_pos (by simpa using hy),List.foldl_cons]
      obtain ⟨dx,dy,dr⟩ := d
      dsimp only at hy
      subst hy
      rw [setRune_row b dx dr s h0 hh]
    · rw [List.filter_cons_of_neg (by simpa using hy),
        setRune_row_other b d.x d.r s (fun h => hy h.symm)]

lemma setRune_outside (b : Buffer σ) {x : ℤ} (y r : ℤ) (s : σ) (h : b.w ≤ x) :
    (b.setRune mark x y r s).1 = b := by
  rw [Buffer.setRune,if_pos (Or.inr (Or.inr h))]

lemma advance_outside {w : ℤ} (h y r : ℤ) {x : ℤ} (hx : w ≤ x) : advance mark w h x y r = 0 := by
  rw [advance,if_pos (Or.inr (Or.inr hx))]

/-- Past the last column nothing is drawn. -/
lemma drawAll_outside (b : Buffer σ) {x : ℤ} (y : ℤ) (text : List ℤ) (s : σ) (h : b.w ≤ x) :
    drawAll mark s b (stringDraws mark b.w b.h y x text) = b := by
  induction text with
  | nil => rfl
  | cons r rest ih =>
    rw [stringDraws,advance_outside b.h y r h,Nat.cast_zero,Int.add_zero]
    change drawAll mark s (b.setRune mark x y r s).1 (stringDraws mark b.w b.h y x rest) = b
    rw [setRune_outside b y r s h,ih]

lemma setFrom_draws (b : Buffer σ) (x y : ℤ) (s : σ) (used : ℕ) (text : List ℤ) :
    (b.setFrom mark x y s used text).1 = drawAll mark s b (stringDraws mark b.w b.h y
      (x+used) text) := by
  induction text generalizing b used with
  | nil => rfl
  | cons r rest ih =>
    rw [Buffer.setFrom]
    split
    · rename_i hout
      exact (drawAll_outside b y (r :: rest) s hout).symm
    · have hsize := @setRune_size σ mark b (x+used) y r s
      dsimp only
      rw [ih,setRune_advance,hsize.1,hsize.2,stringDraws,Nat.cast_add,← Int.add_assoc]
      rfl

lemma fill_draws (b : Buffer σ) (rect : Rect) (ch : ℤ) (s : σ) :
    b.fill mark rect ch s = drawAll mark s b (draws mark b.w b.h (.fill rect ch s)) := by
  rw [Buffer.fill,draws,drawAll,List.foldl_flatMap]
  simp only [List.foldl_map]

/-- A call that draws is its draws one after the other. -/
lemma perform_draws (b : Buffer σ) (c : Call σ) :
    (∃ s, b.perform mark plain c = drawAll mark s b (draws mark b.w b.h c))
    ∨ (draws mark b.w b.h c = [] ∧ ((∃ rect s, b.perform mark plain c = b.fillStyle rect s)
      ∨ ∃ w h s, b.perform mark plain c = ⟨w,h,fun _ _ => blankCell s⟩)) := by
  cases c with
  | setRune x y r s => exact Or.inl ⟨s,rfl⟩
  | setString x y text s =>
    refine Or.inl ⟨s,?_⟩
    have h := @setFrom_draws σ mark b x y s 0 text
    rwa [Nat.cast_zero,Int.add_zero] at h
  | fill rect ch s => exact Or.inl ⟨s,fill_draws b rect ch s⟩
  | fillStyle rect s => exact Or.inr ⟨rfl,Or.inl ⟨rect,s,rfl⟩⟩
  | clear s => exact Or.inr ⟨rfl,Or.inr ⟨b.w,b.h,s,rfl⟩⟩
  | resize w h =>
    by_cases hsame : b.w = max w 0 ∧ b.h = max h 0
    · refine Or.inl ⟨plain,?_⟩
      rw [Buffer.perform,Buffer.resize,if_pos hsame]
      rfl
    · refine Or.inr ⟨rfl,Or.inr ⟨max w 0,max h 0,plain,?_⟩⟩
      rw [Buffer.perform,Buffer.resize,if_neg hsame]

/-! Restyling leaves the runes and the marks. -/

/-- The same size, and the same runes and marks everywhere. -/
def SameText (b b' : Buffer σ) : Prop :=
  b'.w = b.w ∧ b'.h = b.h ∧ ∀ x y, (b'.cell x y).r = (b.cell x y).r ∧
  (b'.cell x y).comb = (b.cell x y).comb

lemma SameText.refl (b : Buffer σ) : SameText b b := ⟨rfl,rfl,fun _ _ => ⟨rfl,rfl⟩⟩

lemma SameText.trans {b b' b'' : Buffer σ} (h : SameText b b') (h' : SameText b' b'') :
    SameText b b'' :=
  ⟨h'.1.trans h.1,h'.2.1.trans h.2.1,fun x y => ⟨(h'.2.2 x y).1.trans (h.2.2 x y).1,
    (h'.2.2 x y).2.trans (h.2.2 x y).2⟩⟩

lemma foldl_sameText {α : Type} {step : Buffer σ → α → Buffer σ}
    (hstep : ∀ b a, SameText b (step b a)) (as : List α) (b : Buffer σ) :
    SameText b (as.foldl step b) := by
  induction as generalizing b with
  | nil => exact .refl b
  | cons a as ih => exact (hstep b a).trans (ih _)

lemma restyle_sameText (b : Buffer σ) (x y : ℤ) (s : σ) : SameText b (b.restyle x y s) := by
  rw [Buffer.restyle]
  split
  · exact .refl b
  · refine ⟨rfl,rfl,fun x' y' => ?_⟩
    rw [put_cell]
    split
    · rename_i h
      rw [h.1,h.2]
      exact ⟨rfl,rfl⟩
    · exact ⟨rfl,rfl⟩

lemma fillStyle_sameText (b : Buffer σ) (rect : Rect) (s : σ) :
    SameText b (b.fillStyle rect s) := by
  refine foldl_sameText (fun b y => ?_) _ b
  split
  · exact .refl b
  · exact foldl_sameText (fun b x => restyle_sameText b x y s) _ b

/-! No control character is stored. -/

lemma not_control_of_width {r : ℤ} (h : runeWidth mark r ≠ 0) : isControl r = false := by
  rw [Bool.eq_false_iff]
  intro hc
  have hcases : (0 ≤ r ∧ r < 0x20) ∨ (0x7f ≤ r ∧ r < 0xa0) := by simpa [isControl] using hc
  refine h ?_
  rw [runeWidth]
  split
  · rfl
  · rw [if_pos (by omega)]

lemma not_control_encoded {r : ℤ} (h : isControl r = false) : isControl (encoded r) = false := by
  rw [encoded]
  split
  · exact h
  · decide

lemma put_clean {c : Cell σ} (h : ∀ x y, (b.cell x y).Clean) (hc : c.Clean) (x y : ℤ) :
    ∀ x' y', ((b.put x y c).cell x' y').Clean := by
  intro x' y'
  rw [put_cell]
  split
  · exact hc
  · exact h x' y'

lemma addMark_clean {c : Cell σ} (h : c.Clean) (hr : isControl r = false) :
    (c.addMark r).Clean := by
  rw [Cell.addMark]
  split
  · exact h
  · refine ⟨h.1,fun m hm => ?_⟩
    obtain hm | hm := List.mem_append.mp hm
    · exact h.2 m hm
    · rw [List.mem_singleton.mp hm]
      exact not_control_encoded hr

lemma setRune_clean (h : ∀ x y, (b.cell x y).Clean) (x y r : ℤ) (s : σ) :
    ∀ x' y', ((b.setRune mark x y r s).1.cell x' y').Clean := by
  unfold Buffer.setRune
  dsimp only
  split
  · exact h
  split
  · split
    · exact h
    rename_i hcontrol
    rw [not_or,Bool.not_eq_true] at hcontrol
    split
    · exact put_clean h (addMark_clean (h _ _) hcontrol.1) _ _
    · exact h
  rename_i hne
  have hrune : (⟨r,[],s⟩ : Cell σ).Clean :=
    ⟨Or.inr (not_control_of_width hne),fun m hm => (by cases hm)⟩
  split
  · exact h
  split
  · split
    · exact put_clean h ⟨Or.inr rfl,fun m hm => (by cases hm)⟩ _ _
    · exact put_clean (put_clean h hrune _ _) ⟨Or.inl rfl,fun m hm => (by cases hm)⟩ _ _
  · exact put_clean h hrune _ _

lemma drawAll_clean (h : ∀ x y, (b.cell x y).Clean) (s : σ) (ds : List Draw) :
    ∀ x y, ((drawAll mark s b ds).cell x y).Clean := by
  induction ds generalizing b with
  | nil => exact h
  | cons d ds ih => exact ih (setRune_clean h d.x d.y d.r s)

end buffers

/-- A buffer, and where the last character drawn stands. -/
structure Screen (σ : Type) where
  buf : Buffer σ
  last : Last

section screens
variable {σ : Type} (mark : ℤ → Bool) (plain : σ)

def Call.style : Call σ → σ
  | .setRune _ _ _ s => s
  | .setString _ _ _ s => s
  | .fill _ _ s => s
  | .fillStyle _ s => s
  | .clear s => s
  | .resize _ _ => plain

/-- A buffer that is cleared has no last character. -/
def Screen.lastOf (sc : Screen σ) : Call σ → Last
  | .clear _ => none
  | .resize w h => if sc.buf.w = max w 0 ∧ sc.buf.h = max h 0 then sc.last else none
  | c => (draws mark sc.buf.w sc.buf.h c).foldl (lastAfter mark sc.buf.w sc.buf.h) sc.last

def Screen.perform (sc : Screen σ) (c : Call σ) : Screen σ :=
  ⟨sc.buf.perform mark plain c,sc.lastOf mark c⟩

/-- After each call the buffer holds no half of a character, and every mark is with its
character. -/
def Holds : Screen σ → List (Call σ) → Prop
  | _,[] => True
  | sc,c :: cs => Attached mark (c.style plain) sc.buf sc.last (draws mark sc.buf.w sc.buf.h c)
    ∧ Whole mark (sc.perform mark plain c).buf ∧ Holds (sc.perform mark plain c) cs

/-- No call cuts a wide character, and no mark is drawn after a wide character or past the last
column. -/
def careful : Screen σ → List (Call σ) → Bool
  | _,[] => true
  | sc,c :: cs => edges mark sc.buf c && marksFit mark sc.buf.w sc.buf.h sc.last
    (draws mark sc.buf.w sc.buf.h c)
    && careful (sc.perform mark plain c) cs

def fresh (w h : ℤ) : Screen σ := ⟨newBuffer plain w h,none⟩

/-- The last character stands within the buffer. -/
def LastIn (w h : ℤ) (last : Last) : Prop := ∀ l, last = some l → 0 ≤ l.1 ∧ l.1+l.2.2 ≤ w ∧
    0 ≤ l.2.1 ∧ l.2.1 < h

variable {mark plain} {b : Buffer σ} {last : Last}

lemma lastAfter_in {w h : ℤ} (hl : LastIn w h last) (d : Draw) :
    LastIn w h (lastAfter mark w h last d) := by
  rw [lastAfter]
  split
  · exact hl
  split
  · rename_i hin
    intro l heq
    obtain rfl := Option.some.inj heq
    exact ⟨hin.2.2.1,hin.2.2.2,hin.1,hin.2.1⟩
  · intro l heq
    cases heq

lemma foldl_lastAfter_in {w h : ℤ} (hl : LastIn w h last) (ds : List Draw) :
    LastIn w h (ds.foldl (lastAfter mark w h) last) := by
  induction ds generalizing last with
  | nil => exact hl
  | cons d ds ih => exact ih (lastAfter_in hl d)

lemma follows_some {d : Draw} {l : ℤ × ℤ × ℕ} (h : follows mark last d = some l) :
    last = some l ∧ d.x = l.1+l.2.2 ∧ d.y = l.2.1 ∧ isMark mark d.r = true := by
  rw [follows,Option.filter_eq_some_iff] at h
  refine ⟨h.1,?_⟩
  simpa [and_assoc] using h.2

lemma isMark_iff {r : ℤ} :
    isMark mark r = true ↔ runeWidth mark r = 0 ∧ ¬ (isControl r = true ∨ r < 0x20) := by
  simp [isMark]

/-- A mark directly after a narrow character that is not in the last column goes to its cell. -/
lemma mark_attached (s : σ) {d : Draw} {l : ℤ × ℤ × ℕ} (hl : LastIn b.w b.h last)
    (h : follows mark last d = some l) (hone : l.2.2 = 1)
    (hw : l.1+1 < b.w) : (b.setRune mark d.x d.y d.r s).1.cell l.1 l.2.1 =
    (b.cell l.1 l.2.1).addMark d.r := by
  obtain ⟨hlast,hx,hy,hm⟩ := follows_some h
  obtain ⟨hx0,-,hy0,hyh⟩ := hl l hlast
  obtain ⟨hzero,hcontrol⟩ := isMark_iff.mp hm
  rw [hone,Nat.cast_one] at hx
  rw [Buffer.setRune,if_neg (by omega)]
  dsimp only
  rw [if_pos hzero,if_neg hcontrol,if_pos (by omega),put_cell,if_pos ⟨by omega,by omega⟩,hy,
    show d.x-1 = l.1 by omega]

lemma attached_of_marksFit (s : σ) {ds : List Draw} (hl : LastIn b.w b.h last)
    (h : marksFit mark b.w b.h last ds = true) : Attached mark s b last ds := by
  induction ds generalizing b last with
  | nil => trivial
  | cons d ds ih =>
    rw [marksFit,Bool.and_eq_true] at h
    have hsize := @setRune_size σ mark b d.x d.y d.r s
    refine ⟨fun l hfollows => ?_,?_⟩
    · rw [hfollows] at h
      have hfit : l.2.2 = 1 ∧ l.1+1 < b.w := by simpa using h.1
      exact mark_attached s hl hfollows hfit.1 hfit.2
    · refine ih ?_ ?_
      · rw [hsize.1,hsize.2]
        exact lastAfter_in hl d
      · rw [hsize.1,hsize.2]
        exact h.2

variable (mark) in
/-- What holds of a screen between calls. -/
structure Intact (sc : Screen σ) : Prop where
  rows : ∀ y, 0 ≤ y → y < sc.buf.h → Upto mark (sc.buf.row y) sc.buf.w
  clean : ∀ x y, (sc.buf.cell x y).Clean
  last : LastIn sc.buf.w sc.buf.h sc.last

lemma Intact.whole {sc : Screen σ} (h : Intact mark sc) : Whole mark sc.buf := by
  refine ⟨fun x y hx hxw hy hyh hwide => ?_,fun x y hx hxw hy hyh hcont => ?_,
    fun x y _ _ _ _ => h.clean x y⟩
  · obtain ⟨hlt,hzero⟩ := (h.rows y hy hyh x hx hxw).1 hwide
    exact ⟨hlt,decide_eq_true hzero⟩
  · exact (h.rows y hy hyh x hx hxw).2 (of_decide_eq_true hcont)

lemma blank_upto (s : σ) (w h y p : ℤ) :
    Upto mark ((⟨w,h,fun _ _ => blankCell s⟩ : Buffer σ).row y) p := by
  intro x _ _
  exact ⟨fun hw => absurd hw not_wide_blank,fun hz => absurd hz (show ¬ (32 : ℤ) = 0 by decide)⟩

lemma blank_clean (s : σ) : (blankCell s).Clean := ⟨Or.inr rfl,fun m hm => (by cases hm)⟩

lemma intact_fresh (w h : ℤ) : Intact mark (fresh plain w h) :=
  ⟨fun _ _ _ => blank_upto plain _ _ _ _,fun _ _ => blank_clean plain,fun _ h => (by cases h)⟩

lemma mem_upTo {lo hi y : ℤ} (h : lo ≤ y) (h' : y < hi) : y ∈ upTo lo hi := by
  have hlt : (y-lo).toNat < (hi-lo).toNat := by omega
  rw [upTo,List.mem_map]
  exact ⟨(y-lo).toNat,List.mem_range.mpr hlt,by omega⟩

/-- A call that cuts no wide character leaves whole characters. -/
lemma perform_rows {sc : Screen σ} (h : Intact mark sc) {c : Call σ}
    (hedges : edges mark sc.buf c = true) :
    (∀ y, 0 ≤ y → y < (sc.perform mark plain c).buf.h →
      Upto mark ((sc.perform mark plain c).buf.row y) (sc.perform mark plain c).buf.w)
      ∧ ∀ x y, ((sc.perform mark plain c).buf.cell x y).Clean := by
  rw [Screen.perform]
  obtain ⟨s,heq⟩ | ⟨-,⟨rect,s,heq⟩ | ⟨w,h',s,heq⟩⟩ := @perform_draws σ mark plain sc.buf c
  · rw [heq]
    have hsize := @drawAll_size σ mark s sc.buf (draws mark sc.buf.w sc.buf.h c)
    refine ⟨fun y hy hyh => ?_,drawAll_clean h.clean s _⟩
    dsimp only at hyh ⊢
    rw [hsize.2] at hyh
    rw [hsize.1,drawAll_row s sc.buf _ hy hyh]
    exact (h.rows y hy hyh).row (List.all_eq_true.mp hedges y (mem_upTo hy hyh))
  · rw [heq]
    obtain ⟨hw,hh,hsame⟩ := fillStyle_sameText sc.buf rect s
    refine ⟨fun y hy hyh => ?_,fun x y => ?_⟩
    · dsimp only at hyh ⊢
      rw [hh] at hyh
      have hrow : (sc.buf.fillStyle rect s).row y = sc.buf.row y := by
        funext x
        exact (hsame x y).1
      rw [hrow,hw]
      exact h.rows y hy hyh
    · obtain ⟨hr,hcomb⟩ := hsame x y
      have hclean := h.clean x y
      rw [Cell.Clean] at hclean ⊢
      dsimp only
      rw [hr,hcomb]
      exact hclean
  · rw [heq]
    exact ⟨fun y _ _ => blank_upto s _ _ _ _,fun _ _ => blank_clean s⟩

lemma lastIn_none (w h : ℤ) : LastIn w h none := fun _ h => (by cases h)

lemma lastOf_in {sc : Screen σ} (h : Intact mark sc) (c : Call σ) :
    LastIn (sc.perform mark plain c).buf.w (sc.perform mark plain c).buf.h (sc.lastOf mark c) := by
  have hdrawn : ∀ s, LastIn (drawAll mark s sc.buf (draws mark sc.buf.w sc.buf.h c)).w
    (drawAll mark s sc.buf (draws mark sc.buf.w sc.buf.h c)).h
      ((draws mark sc.buf.w sc.buf.h c).foldl (lastAfter mark sc.buf.w sc.buf.h) sc.last) := by
    intro s
    have hsize := @drawAll_size σ mark s sc.buf (draws mark sc.buf.w sc.buf.h c)
    rw [hsize.1,hsize.2]
    exact foldl_lastAfter_in h.last _
  cases c with
  | setRune x y r s => exact hdrawn s
  | setString x y text s =>
    have heq := @setFrom_draws σ mark sc.buf x y s 0 text
    rw [Nat.cast_zero,Int.add_zero] at heq
    change LastIn (sc.buf.setFrom mark x y s 0 text).1.w (sc.buf.setFrom mark x y s 0 text).1.h _
    rw [heq]
    exact hdrawn s
  | fill rect ch s =>
    change LastIn (sc.buf.fill mark rect ch s).w (sc.buf.fill mark rect ch s).h _
    rw [fill_draws]
    exact hdrawn s
  | fillStyle rect s =>
    obtain ⟨hw,hh,-⟩ := fillStyle_sameText sc.buf rect s
    change LastIn (sc.buf.fillStyle rect s).w (sc.buf.fillStyle rect s).h sc.last
    rw [hw,hh]
    exact h.last
  | clear s => exact lastIn_none _ _
  | resize w h' =>
    rw [Screen.lastOf,Screen.perform,Buffer.perform,Buffer.resize]
    split
    · exact h.last
    · exact lastIn_none _ _

lemma Intact.perform {sc : Screen σ} (h : Intact mark sc) {c : Call σ}
    (hedges : edges mark sc.buf c = true) :
    Intact mark (sc.perform mark plain c) :=
  ⟨(perform_rows h hedges).1,(perform_rows h hedges).2,lastOf_in h c⟩

lemma Intact.holds {sc : Screen σ} (h : Intact mark sc) {cs : List (Call σ)}
    (hcareful : careful mark plain sc cs = true) : Holds mark plain sc cs := by
  induction cs generalizing sc with
  | nil => trivial
  | cons c cs ih =>
    rw [careful,Bool.and_eq_true,Bool.and_eq_true] at hcareful
    obtain ⟨⟨hedges,hmarks⟩,hrest⟩ := hcareful
    have hnext := @Intact.perform σ mark plain sc h c hedges
    exact ⟨attached_of_marksFit _ h.last hmarks,hnext.whole,ih hnext hrest⟩

/-- In every run whose calls cut no wide character and draw no mark directly after a wide character
or past the last column, every buffer holds whole characters, and every mark is with its
character. -/
theorem holds_of_careful {σ : Type} (mark : ℤ → Bool) (plain : σ) (w h : ℤ) {cs : List (Call σ)}
    (hcareful : careful mark plain (fresh plain w h) cs = true) :
    Holds mark plain (fresh plain w h) cs :=
  (intact_fresh w h).holds hcareful

/-- A wide rune, a letter beside it, and an accent on the letter. -/
def sideBySide : List (Call Unit) := [.setRune 0 0 0x65E5 (),.setString 2 0 [0x78,0x301] ()]

theorem holds_of_careful_beside :
    careful accents () (fresh () 4 1) sideBySide = true ∧
    Holds accents () (fresh () 4 1) sideBySide :=
  ⟨by decide,holds_of_careful accents () 4 1 (by decide)⟩

/-- A letter over the second half of a wide rune. -/
def overHalf : List (Call Unit) := [.setRune 0 0 0x65E5 (),.setRune 1 0 0x78 ()]

lemma overHalf_cells (sc : Screen Unit)
    (h : sc = overHalf.foldl (Screen.perform accents ()) (fresh () 4 1)) :
    0 < sc.buf.w ∧ 0 < sc.buf.h
    ∧ runeWidth accents (sc.buf.cell 0 0).r = 2 ∧ (sc.buf.cell 1 0).isContinuation = false := by
  rw [h]
  set_option maxRecDepth 20000 in decide

/-- A letter over the second half of a wide rune leaves the first half, and an accent after a wide
rune goes to its second half. -/
theorem not_holds_over : ¬ Holds accents () (fresh () 4 1) overHalf ∧
    ¬ Holds accents () (fresh () 4 1) [.setString 0 0 [0x65E5,0x301] ()] := by
  refine ⟨fun h => ?_,fun h => ?_⟩
  · obtain ⟨-,-,-,hwhole,-⟩ := h
    have hcells := overHalf_cells
      (((fresh () 4 1).perform accents () (.setRune 0 0 0x65E5 ())).perform accents ()
      (.setRune 1 0 0x78 ())) rfl
    generalize ((fresh () 4 1).perform accents () (.setRune 0 0 0x65E5 ())).perform accents ()
      (.setRune 1 0 0x78 ()) = sc at hwhole hcells
    obtain ⟨hw,hh,hwide,hcont⟩ := hcells
    have hfollowed := (hwhole.followed 0 0 (by decide) hw (by decide) hh hwide).2
    exact absurd (hcont.symm.trans hfollowed) (by decide)
  · obtain ⟨⟨-,hmark,-⟩,-⟩ := h
    have hcell := congrArg Cell.comb (hmark (0,0,2) (by decide))
    exact absurd hcell (by decide)

end screens
end Manvi.Render
