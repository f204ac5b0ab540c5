import Manvi.Render.Painter

/-! The terminal shows the frame: row by row, whatever of the row was there before. -/
namespace Manvi.Render

variable {σ : Type} {mark : ℤ → Bool} {plain broken : σ} {erased : σ → σ}

section row
variable {w y : ℕ} {full : Bool} {cur : ℕ → Cell σ} {t₀ t : Term σ} {base : ℕ → ℕ → Cell σ}
    {p : Paint σ} {x : ℕ}

/-- A row painted up to a column: there the terminal shows the frame, and behind it what it is
believed to show, but for a half whose rune was overwritten. -/
structure RowInv (mark : ℤ → Bool) (plain broken : σ) (erased : σ → σ) (w y : ℕ) (full : Bool)
    (cur : ℕ → Cell σ) (t₀ : Term σ) (base : ℕ → ℕ → Cell σ)
    (p : Paint σ) (t : Term σ) (x : ℕ) : Prop where
  run : p.out.foldl (Term.exec mark plain broken erased) t₀ = t
  shown : ∀ i < x, i < w → Shows erased (cur i) (t.cell y i)
  rest : ∀ i, x ≤ i → i < w → full = true ∨ Shows erased (p.prev i) (t.cell y i) ∨
    ((p.prev i).isContinuation = true ∧ (cur i).isContinuation = false)
  believed : ∀ i < x, i < w → p.prev i = cur i
  halved : Halved mark (t.cell y)
  others : ∀ y', y' ≠ y → t.cell y' = base y'
  style : ∀ s, p.style = some s → t.style = s
  width : t.w = w

lemma continuation_width {c : Cell σ} (h : c.isContinuation = true) : runeWidth mark c.r = 0 := by
  unfold Cell.isContinuation at h
  rw [of_decide_eq_true h]
  rfl

lemma width_blank : runeWidth mark 32 = 1 := by
  unfold runeWidth
  rw [if_neg (by decide),if_neg (by decide),if_pos (by decide)]

/-- A wide rune that the terminal shows is one of the frame. -/
lemma Shows.wide {c c' : Cell σ} (h : Shows erased c c') (hwide : runeWidth mark c'.r = 2) :
    runeWidth mark c.r = 2 := by
  obtain rfl | ⟨-,-,rfl⟩ := h
  · exact hwide
  · rw [show (blankCell (erased c.style)).r = 32 from rfl,width_blank] at hwide
    cases hwide

lemma Shows.continuation {c c' : Cell σ} (h : Shows erased c c') (hc : c'.isContinuation = true) :
    c.isContinuation = true := by
  obtain rfl | ⟨-,-,rfl⟩ := h
  · exact hc
  · cases hc

lemma shows_self (c : Cell σ) : Shows erased c c := Or.inl rfl

lemma RowInv.back (h : RowInv mark plain broken erased w y full cur t₀ base p t x) {k : ℕ}
    (hk : k ≤ x) : RowInv mark plain broken erased w y full cur t₀ base p t k := by
  refine ⟨h.run,fun i hi => h.shown i (by omega),fun i hi hw => ?_,
    fun i hi => h.believed i (by omega),h.halved,h.others,h.style,h.width⟩
  by_cases hix : i < x
  · rw [h.believed i hix hw]
    exact Or.inr (Or.inl (h.shown i hix hw))
  · exact h.rest i (by omega) hw

/-- Where a rune of its own is painted, the terminal has no second half of a rune that stays. -/
lemma RowInv.left (h : RowInv mark plain broken erased w y full cur t₀ base p t x)
    (hpaired : Paired mark w cur) (hx : x < w) (hcur : (cur x).isContinuation = false) :
    (t.cell y x).isContinuation = false := by
  rw [← Bool.not_eq_true]
  intro hcont
  obtain ⟨hpos,hwide⟩ := h.halved x hcont
  have hshown := (h.shown (x-1) (by omega) (by omega)).wide hwide
  have hnext := (hpaired.wide (x-1) (by omega) hshown).2
  rw [Nat.sub_add_cancel hpos,hcur] at hnext
  cases hnext

lemma putRow_before {row : ℕ → Cell σ} {col wd i : ℕ} {c : Cell σ}
    (hrow : (row col).isContinuation = false) (hi : i < col) :
    putRow broken row col wd c i = row i := by
  unfold putRow
  rw [if_neg (by omega),if_neg (by omega),if_neg (by simp [hrow]),if_neg (by omega)]

lemma putRow_behind {row : ℕ → Cell σ} {col wd i : ℕ} {c : Cell σ}
    (hrow : (row col).isContinuation = false) (hwd : 1 ≤ wd) (hi : col+wd ≤ i) :
    putRow broken row col wd c i = row i ∨ (i = col+wd ∧ (row i).isContinuation = true ∧
      putRow broken row col wd c i = blankCell broken) := by
  unfold putRow
  rw [if_neg (by omega),if_neg (by omega),if_neg (by simp [hrow])]
  split
  · rename_i hcut
    exact Or.inr ⟨hcut.1,hcut.2,rfl⟩
  · exact Or.inl rfl

/-- A rune that is put leaves no second half alone. -/
lemma halved_putRow {row : ℕ → Cell σ} {col : ℕ} {c : Cell σ} (h : Halved mark row)
    (hc : c.isContinuation = false) :
    Halved mark (putRow broken row col (max (runeWidth mark c.r) 1) c) := by
  have htwo : runeWidth mark c.r ≤ 2 := runeWidth_le c.r
  intro i hcont
  unfold putRow at hcont
  split at hcont
  · rw [hc] at hcont
    cases hcont
  split at hcont
  · rename_i hat hin
    have hi : i-1 = col := by omega
    refine ⟨by omega,?_⟩
    unfold putRow
    rw [if_pos hi]
    omega
  split at hcont
  · cases hcont
  split at hcont
  · cases hcont
  · rename_i hat hin hcut hnext
    obtain ⟨hpos,hwide⟩ := h i hcont
    have hbeyond : i < col ∨ col+max (runeWidth mark c.r) 1 < i := by
      by_contra hnot
      exact hnext ⟨by omega,hcont⟩
    have hleft : putRow broken row col (max (runeWidth mark c.r) 1) c (i-1) = row (i-1) := by
      unfold putRow
      rw [if_neg (by omega),if_neg (by omega),if_neg (by omega),if_neg]
      rintro ⟨-,hj⟩
      rw [continuation_width hj] at hwide
      cases hwide
    rw [hleft]
    exact ⟨hpos,hwide⟩

lemma halved_eraseRow {row : ℕ → Cell σ} {col : ℕ} {s : σ} (h : Halved mark row) :
    Halved mark (eraseRow broken erased row col s) := by
  intro i hcont
  unfold eraseRow at hcont
  split at hcont
  · cases hcont
  split at hcont
  · cases hcont
  · obtain ⟨hpos,hwide⟩ := h i hcont
    have hleft : eraseRow broken erased row col s (i-1) = row (i-1) := by
      unfold eraseRow
      rw [if_neg (by omega),if_neg (by omega)]
    rw [hleft]
    exact ⟨hpos,hwide⟩

/-- Behind what is painted with a rune no second half of the frame begins. -/
lemma Paired.next (h : Paired mark w cur) {col : ℕ} (hcol : col < w)
    (hcur : (cur col).isContinuation = false) (hnext : col+runeWidth mark (cur col).r < w) :
    (cur (col+runeWidth mark (cur col).r)).isContinuation = false := by
  rw [← Bool.not_eq_true]
  intro hcont
  obtain ⟨hone,htwo⟩ := h.width col hcol hcur
  have hwide := (h.half _ hnext hcont).2
  obtain hw | hw : runeWidth mark (cur col).r = 1 ∨ runeWidth mark (cur col).r = 2 := by omega
  · rw [hw,Nat.add_sub_cancel,hw] at hwide
    cases hwide
  · rw [hw,show col+2-1 = col+1 from rfl,continuation_width (h.wide col hcol hw).2] at hwide
    cases hwide

lemma moveTo_prev (p : Paint σ) (a b : ℕ) : (p.moveTo a b).prev = p.prev := by
  unfold Paint.moveTo
  split
  · rfl
  · rfl

lemma RowInv.moveTo (h : RowInv mark plain broken erased w y full cur t₀ base p t x)
    (hlast : ∀ a b, p.last = some (a,b) → t.cx = a ∧ t.cy = b) (a : ℕ) :
    ∃ t', RowInv mark plain broken erased w y full cur t₀ base (p.moveTo a y) t' x ∧ t'.cx = a ∧
    t'.cy = y := by
  unfold Paint.moveTo
  split
  · rename_i hs
    exact ⟨t,h,hlast a y hs⟩
  · refine ⟨{ t with cx := a, cy := y },⟨?_,h.shown,h.rest,h.believed,h.halved,h.others,h.style,
      h.width⟩,rfl,rfl⟩
    rw [List.foldl_append,h.run]
    rfl

lemma Paired.fits (h : Paired mark w cur) {col : ℕ} (hcol : col < w)
    (hcur : (cur col).isContinuation = false) : col+runeWidth mark (cur col).r ≤ w := by
  obtain ⟨hone,htwo⟩ := h.width col hcol hcur
  obtain hw | hw : runeWidth mark (cur col).r = 1 ∨ runeWidth mark (cur col).r = 2 := by omega
  · omega
  · have := (h.wide col hcol hw).1
    omega

/-- The columns that a cell covers are the ones believed afterwards. -/
lemma believed_emit (prev cur : ℕ → Cell σ) {wd : ℕ} (hone : 1 ≤ wd) (htwo : wd ≤ 2)
    (hfits : x+wd ≤ w) (i : ℕ) :
    (if wd = 2 ∧ x+1 < w then Function.update (Function.update prev x (cur x)) (x+1) (cur (x+1))
      else Function.update prev x (cur x)) i
      = if x ≤ i ∧ i < x+wd then cur i else prev i := by
  obtain hw | hw : wd = 1 ∨ wd = 2 := by omega
  · rw [if_neg (by omega)]
    by_cases hi : i = x
    · rw [hi,Function.update_self,if_pos (by omega)]
    · rw [Function.update_of_ne hi,if_neg (by omega)]
  · rw [if_pos (by omega)]
    by_cases hi1 : i = x+1
    · rw [hi1,Function.update_self,if_pos (by omega)]
    · rw [Function.update_of_ne hi1]
      by_cases hi : i = x
      · rw [hi,Function.update_self,if_pos (by omega)]
      · rw [Function.update_of_ne hi,if_neg (by omega)]

/-- A cell that is put shows in both its columns, and what is left of it stays. -/
lemma shows_putRow {row : ℕ → Cell σ} (hpaired : Paired mark w cur) (hx : x < w)
    (hcur : (cur x).isContinuation = false) (hrow : (row x).isContinuation = false)
    (hshown : ∀ i < x, i < w → Shows erased (cur i) (row i)) {i : ℕ}
    (hi : i < x+runeWidth mark (cur x).r) (hw : i < w) :
    Shows erased (cur i) (putRow broken row x (runeWidth mark (cur x).r) (cur x) i) := by
  obtain ⟨hone,htwo⟩ := hpaired.width x hx hcur
  by_cases hbefore : i < x
  · rw [putRow_before hrow hbefore]
    exact hshown i hbefore hw
  · by_cases hat : i = x
    · rw [hat,putRow,if_pos rfl]
      exact shows_self _
    · have hhalf : i = x+1 ∧ runeWidth mark (cur x).r = 2 := by omega
      have hcont := (hpaired.wide x hx hhalf.2).2
      have hbare := hpaired.bare (x+1) (by omega) hcont
      rw [putRow,if_neg hat,if_pos (by omega),hhalf.1,hbare]
      exact shows_self _

variable [DecidableEq σ]

lemma sameCell_eq {a b : Cell σ} (h : sameCell a b = true) : a = b := by
  obtain ⟨r,comb,style⟩ := a
  obtain ⟨r',comb',style'⟩ := b
  unfold sameCell at h
  obtain ⟨rfl,rfl,rfl⟩ := of_decide_eq_true h
  rfl

lemma RowInv.applyStyle (h : RowInv mark plain broken erased w y full cur t₀ base p t x) (s : σ) :
    ∃ t', RowInv mark plain broken erased w y full cur t₀ base (p.applyStyle s) t' x ∧
    t'.style = s ∧ t'.cx = t.cx ∧ t'.cy = t.cy := by
  unfold Paint.applyStyle
  split
  · rename_i hs
    exact ⟨t,h,h.style s hs,rfl,rfl⟩
  · refine ⟨{ t with style := s },⟨?_,h.shown,h.rest,h.believed,h.halved,h.others,fun s' hs' => ?_,
      h.width⟩,rfl,rfl,rfl⟩
    · rw [List.foldl_append,h.run]
      rfl
    · cases hs'
      rfl

lemma applyStyle_prev (p : Paint σ) (s : σ) : (p.applyStyle s).prev = p.prev := by
  unfold Paint.applyStyle
  split
  · rfl
  · rfl

/-- A cell is painted: the row is right up to the column behind it. -/
lemma RowInv.emit (h : RowInv mark plain broken erased w y full cur t₀ base p t x)
    (hpaired : Paired mark w cur) (hx : x < w) (hcur : (cur x).isContinuation = false)
    (hcx : t.cx = x) (hcy : t.cy = y) :
    (p.emit mark w cur x).2 = x+runeWidth mark (cur x).r ∧ ∃ t',
    RowInv mark plain broken erased w y full cur t₀ base (p.emit mark w cur x).1 t'
    (x+runeWidth mark (cur x).r)
      ∧ t'.cx = x+runeWidth mark (cur x).r ∧ t'.cy = y := by
  obtain ⟨hone,htwo⟩ := hpaired.width x hx hcur
  obtain ⟨t1,h1,hstyle,hcx1,hcy1⟩ := h.applyStyle (cur x).style
  have hprev := applyStyle_prev p (cur x).style
  unfold Paint.emit
  rw [hcur,if_neg Bool.false_ne_true]
  dsimp only
  generalize p.applyStyle (cur x).style = q at h1 hprev ⊢
  have hmax : max (runeWidth mark (cur x).r) 1 = runeWidth mark (cur x).r := max_eq_left hone
  have hfits := hpaired.fits hx hcur
  have hrow : (t1.cell y x).isContinuation = false := h1.left hpaired hx hcur
  have hshows : ∀ i, i < x+runeWidth mark (cur x).r → i < w →
    Shows erased (cur i) (putRow broken (t1.cell y) x (runeWidth mark (cur x).r) (cur x) i) :=
    fun i hi hw => shows_putRow hpaired hx hcur hrow h1.shown hi hw
  have hnextcol : ∀ i, i = x+runeWidth mark (cur x).r → i < w → (cur i).isContinuation = false := by
    rintro i rfl hw
    exact hpaired.next hx hcur hw
  have hhalved := @halved_putRow _ mark broken (t1.cell y) x (cur x) h1.halved hcur
  rw [hmax] at hhalved
  generalize hwd : runeWidth mark (cur x).r = wd at hone htwo hmax hfits hshows hnextcol hhalved ⊢
  have hexec : t1.exec mark plain broken erased (.put (cur x).r (cur x).comb)
      = { t1 with
        cell := Function.update t1.cell y (putRow broken (t1.cell y) x wd (cur x)),
        cx := x+wd } := by
    unfold Term.exec
    dsimp only
    rw [hwd,hmax,hcx1,hcy1,hcx,hcy,h1.width,if_neg (by simpa [Cell.isContinuation] using hcur),
      if_neg (by omega),hstyle]
  have hbelieved := fun i => believed_emit q.prev cur hone htwo hfits i
  have hcell : ∀ i, ({ t1 with
    cell := Function.update t1.cell y (putRow broken (t1.cell y) x wd (cur x)), cx :=
      x+wd } : Term σ).cell y i
      = putRow broken (t1.cell y) x wd (cur x) i := by
    intro i
    dsimp only
    rw [Function.update_self]
  refine ⟨congrArg (x+·) hmax,
    { t1 with
      cell := Function.update t1.cell y (putRow broken (t1.cell y) x wd (cur x)), cx := x+wd },
      ⟨?_,fun i hi hw => ?_,fun i hi hw => ?_,fun i hi hw => ?_,?_,fun y' hy' => ?_,fun s hs => ?_,
      h1.width⟩,rfl,hcy1.trans hcy⟩
  · rw [List.foldl_append,h1.run,List.foldl_cons,List.foldl_nil,hexec]
  · rw [hcell]
    exact hshows i hi hw
  · rw [hcell]
    dsimp only
    rw [hbelieved,if_neg (by omega)]
    have hold := h1.rest i (by omega) hw
    obtain heq | ⟨heq,hcut,hblank⟩ :=
      @putRow_behind _ broken (t1.cell y) x wd i (cur x) hrow hone hi
    · rw [heq]
      exact hold
    · have hnext := hnextcol i heq hw
      obtain hfull | hshow | hexc := hold
      · exact Or.inl hfull
      · exact Or.inr (Or.inr ⟨hshow.continuation hcut,hnext⟩)
      · exact Or.inr (Or.inr hexc)
  · dsimp only
    rw [hbelieved]
    split
    · rfl
    · have hix : i < x := by omega
      exact h1.believed i hix hw
  · dsimp only
    rw [Function.update_self]
    exact hhalved
  · dsimp only
    rw [Function.update_of_ne hy']
    exact h1.others y' hy'
  · exact h1.style s hs

/-- A run of cells is painted: as far as its last column, or to the end of the row. -/
lemma RowInv.emitRun (hpaired : Paired mark w cur) (stop : ℕ) {fuel : ℕ}
    (h : RowInv mark plain broken erased w y full cur t₀ base p t x)
    (hcur : x < w → (cur x).isContinuation = false) (hcx : t.cx = x) (hcy : t.cy = y)
    (hfuel : w ≤ x+fuel) :
    ∃ t', RowInv mark plain broken erased w y full cur t₀ base
    (Paint.emitRun mark w cur stop fuel p x).1 t' (Paint.emitRun mark w cur stop fuel p x).2
      ∧ t'.cx = (Paint.emitRun mark w cur stop fuel p x).2 ∧ t'.cy = y ∧
      x ≤ (Paint.emitRun mark w cur stop fuel p x).2
      ∧ (stop < (Paint.emitRun mark w cur stop fuel p x).2 ∨
        w ≤ (Paint.emitRun mark w cur stop fuel p x).2) := by
  induction fuel generalizing p t x with
  | zero => exact ⟨t,h,hcx,hcy,Nat.le_refl x,Or.inr hfuel⟩
  | succ fuel ih =>
    unfold Paint.emitRun
    split
    · rename_i hgo
      have hone := (hpaired.width x hgo.2 (hcur hgo.2)).1
      obtain ⟨hcol,t1,h1,hcx1,hcy1⟩ := h.emit hpaired hgo.2 (hcur hgo.2) hcx hcy
      rw [hcol]
      obtain ⟨t',h',hcx',hcy',hle,hdone⟩ :=
        ih h1 (fun hlt => hpaired.next hgo.2 (hcur hgo.2) hlt) hcx1 hcy1 (by omega)
      exact ⟨t',h',hcx',hcy',by omega,hdone⟩
    · rename_i hstop
      exact ⟨t,h,hcx,hcy,Nat.le_refl x,by omega⟩

lemma erasable_blank (h : erasable w full cur p x = true) {i : ℕ} (hx : x ≤ i) (hi : i < w) :
    cur i = blankCell (cur x).style := by
  unfold erasable at h
  simp only [Bool.and_eq_true,decide_eq_true_eq,List.all_eq_true,List.mem_range'_1,
    List.isEmpty_iff] at h
  obtain ⟨⟨hr,hcomb⟩,hstyle⟩ := h.1.1.2 i ⟨hx,by omega⟩
  cases hcell : cur i with
  | mk r comb style =>
    rw [hcell] at hr hcomb hstyle
    unfold blankCell
    dsimp only at hr hcomb hstyle
    rw [hr,hcomb,hstyle]

/-- The rest of a row is erased: it shows the blanks that it is to show. -/
lemma RowInv.eraseRest (h : RowInv mark plain broken erased w y full cur t₀ base p t x)
    (hlast : ∀ a b, p.last = some (a,b) → t.cx = a ∧ t.cy = b)
    (hpaired : Paired mark w cur) (hx : x < w) (herase : erasable w full cur p x = true) :
    ∃ t', RowInv mark plain broken erased w y full cur t₀ base (p.eraseRest w y cur x) t' w ∧
    t'.cx = x ∧ t'.cy = y := by
  have hblank : ∀ i, x ≤ i → i < w → cur i = blankCell (cur x).style :=
    fun i hi hw => erasable_blank herase hi hw
  have hcur : (cur x).isContinuation = false := by
    rw [hblank x (Nat.le_refl x) hx]
    rfl
  obtain ⟨t1,h1,hcx1,hcy1⟩ := h.moveTo hlast x
  obtain ⟨t2,h2,hstyle,hcx2,hcy2⟩ := h1.applyStyle (cur x).style
  have hrow : (t2.cell y x).isContinuation = false := h2.left hpaired hx hcur
  have hbefore : ∀ i < x, eraseRow broken erased (t2.cell y) x (cur x).style i = t2.cell y i := by
    intro i hi
    unfold eraseRow
    rw [if_neg (by omega),if_neg (by simp [hrow])]
  have hbehind : ∀ i, x ≤ i →
    eraseRow broken erased (t2.cell y) x (cur x).style i = blankCell (erased (cur x).style) := by
    intro i hi
    unfold eraseRow
    rw [if_pos hi]
  unfold Paint.eraseRest
  dsimp only
  have hprev : ((p.moveTo x y).applyStyle (cur x).style).prev = p.prev :=
    (applyStyle_prev _ _).trans (moveTo_prev _ _ _)
  generalize (p.moveTo x y).applyStyle (cur x).style = q at h2 hprev ⊢
  refine ⟨{ t2 with
    cell := Function.update t2.cell y (eraseRow broken erased (t2.cell y) x (cur x).style) },
    ⟨?_,fun i hi hw => ?_,fun i hi hw => ?_,fun i hi hw => ?_,?_,fun y' hy' => ?_,h2.style,
      h2.width⟩,hcx2.trans hcx1,hcy2.trans hcy1⟩
  · rw [List.foldl_append,h2.run,List.foldl_cons,List.foldl_nil]
    unfold Term.exec
    rw [hcx2,hcy2,hcx1,hcy1,hstyle]
  · dsimp only
    rw [Function.update_self]
    by_cases hix : i < x
    · rw [hbefore i hix]
      exact h2.shown i hix hw
    · rw [hbehind i (by omega),hblank i (by omega) hw]
      exact Or.inr ⟨rfl,rfl,rfl⟩
  · omega
  · dsimp only
    split
    · rename_i hin
      rw [hblank i hin.1 hin.2]
      exact hblank x (Nat.le_refl x) hx
    · exact h2.believed i (by omega) hw
  · dsimp only
    rw [Function.update_self]
    exact halved_eraseRow h2.halved
  · dsimp only
    rw [Function.update_of_ne hy']
    exact h2.others y' hy'

lemma runEnd_last {changed : ℕ → Bool} (fuel : ℕ) {a last : ℕ} (gap : ℕ) (h : last ≤ a) :
    last ≤ runEnd w changed fuel a last gap := by
  induction fuel generalizing a last gap with
  | zero => exact Nat.le_refl last
  | succ fuel ih =>
    unfold runEnd
    split
    · exact Nat.le_refl last
    split
    · exact h.trans (ih 0 (Nat.le_succ a))
    split
    · exact Nat.le_refl last
    · exact ih (gap+1) (by omega)

/-- A run reaches the column that has to change, also where it begins one before it. -/
lemma runEnd_reaches {changed : ℕ → Bool} {start : ℕ} (hx : x < w) (hchanged : changed x = true)
    (hstart : start = x ∨ start+1 = x) : x ≤ runEnd w changed (w-start) start start 0 := by
  have hat : ∀ fuel last gap, last ≤ x → x ≤ runEnd w changed (fuel+1) x last gap := by
    intro fuel last gap _
    unfold runEnd
    rw [if_neg (by omega),if_pos hchanged]
    exact runEnd_last fuel 0 (Nat.le_succ x)
  obtain rfl | rfl := hstart
  · obtain ⟨fuel,hfuel⟩ : ∃ fuel, w-start = fuel+1 := ⟨w-start-1,by omega⟩
    rw [hfuel]
    exact hat fuel start 0 (Nat.le_refl _)
  · obtain ⟨fuel,hfuel⟩ : ∃ fuel, w-start = fuel+1+1 := ⟨w-start-2,by omega⟩
    rw [hfuel]
    unfold runEnd
    rw [if_neg (by omega)]
    split
    · exact hat fuel start 0 (Nat.le_succ _)
    · rw [if_neg (by decide)]
      exact hat fuel start 1 (Nat.le_succ _)

/-- A row is painted to its end, from any column up to which it is. -/
lemma RowInv.paintRow (hpaired : Paired mark w cur) {fuel : ℕ}
    (h : RowInv mark plain broken erased w y full cur t₀ base p t x)
    (hlast : ∀ a b, p.last = some (a,b) → t.cx = a ∧ t.cy = b) (hfuel : w ≤ x+fuel) :
    ∃ t', RowInv mark plain broken erased w y full cur t₀ base
    (paintRow mark w y full cur fuel x p) t' w
      ∧ ∀ a b, (Render.paintRow mark w y full cur fuel x p).last = some (a,b) → t'.cx = a ∧
      t'.cy = b := by
  induction fuel generalizing p t x with
  | zero => exact ⟨t,h.back hfuel,hlast⟩
  | succ fuel ih =>
    unfold Render.paintRow
    split
    · rename_i hend
      exact ⟨t,h.back hend,hlast⟩
    rename_i hx
    rw [not_le] at hx
    split
    · rename_i hsame
      unfold differs at hsame
      rw [Bool.not_eq_true',Bool.or_eq_false_iff,Bool.not_eq_false'] at hsame
      have heq := sameCell_eq hsame.2
      refine ih ⟨h.run,fun i hi hw => ?_,fun i hi hw => h.rest i (by omega) hw,fun i hi hw => ?_,
        h.halved,h.others,h.style,h.width⟩ hlast (by omega)
      · by_cases hix : i = x
        · rw [hix]
          obtain hfull | hshow | ⟨hprev,hcur⟩ := h.rest x (Nat.le_refl x) hx
          · rw [hsame.1] at hfull
            cases hfull
          · rw [heq]
            exact hshow
          · rw [← heq,hcur] at hprev
            cases hprev
        · exact h.shown i (by omega) hw
      · by_cases hix : i = x
        · rw [hix,heq]
        · exact h.believed i (by omega) hw
    · rename_i hdiff
      rw [Bool.not_eq_true,Bool.not_eq_false'] at hdiff
      dsimp only
      generalize hstart : (if (cur x).isContinuation = true ∧ 0 < x then x-1 else x) = start
      have hspec : (start = x ∨ start+1 = x) ∧ (cur start).isContinuation = false := by
        by_cases hcont : (cur x).isContinuation = true
        · obtain ⟨hpos,hwide⟩ := hpaired.half x hx hcont
          rw [if_pos ⟨hcont,hpos⟩] at hstart
          refine ⟨Or.inr (by omega),?_⟩
          rw [← hstart,← Bool.not_eq_true]
          intro hagain
          rw [continuation_width hagain] at hwide
          cases hwide
        · rw [if_neg (by tauto)] at hstart
          rw [← hstart]
          exact ⟨Or.inl rfl,by simpa using hcont⟩
      obtain ⟨hwhere,hrune⟩ := hspec
      have hback := h.back (show start ≤ x by omega)
      split
      · rename_i herase
        obtain ⟨t1,h1,hcx,hcy⟩ := hback.eraseRest hlast hpaired (by omega) herase
        refine ih h1 (fun a b hab => ?_) (by omega)
        cases hab
        exact ⟨hcx,hcy⟩
      · obtain ⟨t1,h1,hcx1,hcy1⟩ := hback.moveTo hlast start
        have hreach := runEnd_reaches hx hdiff hwhere
        obtain ⟨t2,h2,hcx2,hcy2,-,hdone⟩ :=
          h1.emitRun hpaired (runEnd w (differs full cur p) (w-start) start start 0) (fun _ =>
          hrune) hcx1 hcy1 (Nat.le_add_left w start)
        refine ih ⟨h2.run,h2.shown,h2.rest,h2.believed,h2.halved,h2.others,h2.style,
          h2.width⟩ (fun a b hab => ?_) (by omega)
        cases hab
        exact ⟨hcx2,hcy2⟩

end row
end Manvi.Render
