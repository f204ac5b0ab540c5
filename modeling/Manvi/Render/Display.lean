import Manvi.Render.Painted

/-! A painter and its terminal over whole runs: drawing, resizes, invalidations, flushes and what
else writes to the terminal. -/
namespace Manvi.Render

variable {σ : Type} [DecidableEq σ] {mark : ℤ → Bool} {plain broken : σ} {erased : σ → σ}

section rows
variable {cur prev : Buffer σ} {full : Bool} {t₀ t : Term σ} {out : List (Out σ)}
    {last : Option (ℕ × ℕ)} {style : Option σ}

/-- The terminal after what was written so far, with what the painter knows of it. -/
structure Tracked (mark : ℤ → Bool) (plain broken : σ) (erased : σ → σ) (w : ℕ) (t₀ t : Term σ)
    (out : List (Out σ)) (style : Option σ) : Prop where
  run : out.foldl (Term.exec mark plain broken erased) t₀ = t
  halved : ∀ y, Halved mark (t.cell y)
  style : ∀ s, style = some s → t.style = s
  width : t.w = w

/-- The rows that are painted show the frame, the others are as they were. -/
lemma paintRows_spec {ys : List ℕ} (hnodup : ys.Nodup)
    (hpaired : ∀ y ∈ ys, Paired mark cur.w.toNat (cur.line y))
    (h : Tracked mark plain broken erased cur.w.toNat t₀ t out style)
    (hlast : ∀ a b, last = some (a,b) → t.cx = a ∧ t.cy = b)
    (hshows : ∀ y ∈ ys, ∀ x < cur.w.toNat, full = true ∨
      Shows erased (prev.line y x) (t.cell y x)) :
    ∃ t', Tracked mark plain broken erased cur.w.toNat t₀ t'
    (paintRows mark cur full ys prev out last style).2.1
    (paintRows mark cur full ys prev out last style).2.2
      ∧ (∀ y ∈ ys, ∀ x < cur.w.toNat, Shows erased (cur.line y x) (t'.cell y x) ∧
        (paintRows mark cur full ys prev out last style).1.line y x = cur.line y x)
      ∧ ∀ y ∉ ys, t'.cell y = t.cell y ∧
      (paintRows mark cur full ys prev out last style).1.line y = prev.line y := by
  induction ys generalizing prev out last style t with
  | nil => exact ⟨t,h,fun y hy => (by cases hy),fun y _ => ⟨rfl,rfl⟩⟩
  | cons y ys ih =>
    obtain ⟨hnew,hnodup⟩ := List.nodup_cons.mp hnodup
    have hstart : RowInv mark plain broken erased cur.w.toNat y full (cur.line y) t₀ t.cell
      ⟨prev.line y,out,last,style⟩ t 0 := by
      refine ⟨h.run,fun i hi => absurd hi (Nat.not_lt_zero i),fun i _ hi => ?_,
        fun i hi => absurd hi (Nat.not_lt_zero i),h.halved y,fun _ _ => rfl,h.style,h.width⟩
      exact (hshows y List.mem_cons_self i hi).imp_right Or.inl
    obtain ⟨t1,h1,hlast1⟩ := hstart.paintRow (hpaired y List.mem_cons_self) hlast
      (show cur.w.toNat ≤ 0+(cur.w.toNat+1) by omega)
    unfold paintRows
    dsimp only
    generalize paintRow mark cur.w.toNat y full (cur.line y) (cur.w.toNat+1) 0 ⟨prev.line y,out,
      last,style⟩ = p at h1 hlast1 ⊢
    have hrow : ∀ y', ({ prev with
      cell := fun x' y' => if y' = (y : ℤ) ∧ 0 ≤ x' then p.prev x'.toNat
        else prev.cell x' y' } : Buffer σ).line y'
        = if y' = y then p.prev else prev.line y' := by
      intro y'
      funext x
      unfold Buffer.line
      by_cases hy : y' = y
      · simp [hy]
      · simp [hy]
    have htracked : Tracked mark plain broken erased cur.w.toNat t₀ t1 p.out p.style := by
      refine ⟨h1.run,fun y' => ?_,h1.style,h1.width⟩
      by_cases hy : y' = y
      · rw [hy]
        exact h1.halved
      · rw [h1.others y' hy]
        exact h.halved y'
    have hne : ∀ y' ∈ ys, y' ≠ y := fun y' hy' => ne_of_mem_of_not_mem hy' hnew
    obtain ⟨t',h',hin,hout⟩ :=
      ih hnodup (fun y' hy' => hpaired y' (List.mem_cons_of_mem _ hy')) htracked hlast1 (by
      intro y' hy' x hx
      rw [hrow y',if_neg (hne y' hy'),h1.others y' (hne y' hy')]
      exact hshows y' (List.mem_cons_of_mem _ hy') x hx)
    refine ⟨t',h',fun y' hy' x hx => ?_,fun y' hy' => ?_⟩
    · obtain rfl | hy' := List.mem_cons.mp hy'
      · obtain ⟨hcell,hprev⟩ := hout y' hnew
        rw [hcell,hprev,hrow,if_pos rfl]
        exact ⟨h1.shown x hx hx,h1.believed x hx hx⟩
      · exact hin y' hy' x hx
    · rw [List.mem_cons,not_or] at hy'
      obtain ⟨hcell,hprev⟩ := hout y' hy'.2
      rw [hcell,hprev,hrow,if_neg hy'.1]
      exact ⟨h1.others y' hy'.1,rfl⟩

lemma paintRows_size (ys : List ℕ) : (paintRows mark cur full ys prev out last style).1.w = prev.w ∧
    (paintRows mark cur full ys prev out last style).1.h = prev.h := by
  induction ys generalizing prev out last style with
  | nil => exact ⟨rfl,rfl⟩
  | cons y ys ih => exact ih

end rows

section flush
variable {p : Painter σ} {t : Term σ}

/-- What a flush leaves on the terminal. -/
def Term.read (mark : ℤ → Bool) (plain broken : σ) (erased : σ → σ) (t : Term σ) :
    Option (List (Out σ)) → Term σ
  | none => t
  | some out => out.foldl (Term.exec mark plain broken erased) t

/-- The sizes of the painter's frames and of its terminal agree, and no row of it is torn. -/
structure Matches (mark : ℤ → Bool) (p : Painter σ) (t : Term σ) : Prop where
  width : t.w = p.cur.w.toNat
  prev : p.prev.w = p.cur.w ∧ p.prev.h = p.cur.h
  halved : ∀ y, Halved mark (t.cell y)

/-- The terminal shows what the painter believes. -/
def Believed (erased : σ → σ) (p : Painter σ) (t : Term σ) : Prop :=
  ∀ y < p.cur.h.toNat, ∀ x < p.cur.w.toNat, Shows erased (p.prev.line y x) (t.cell y x)

def Buffer.Paired (mark : ℤ → Bool) (b : Buffer σ) : Prop :=
  ∀ y < b.h.toNat, Render.Paired mark b.w.toNat (b.line y)

omit [DecidableEq σ] in
/-- Resetting the style and placing the caret leave the cells as they are. -/
lemma read_tail (style : Option σ) (cursor : Cursor) : ∃ cx cy s,
    (styleEnd style ++ caret cursor).foldl (Term.exec mark plain broken erased) t = { t with
      cx := cx, cy := cy, style := s } := by
  unfold caret
  cases style with
  | none =>
    cases cursor.visible with
    | false => exact ⟨_,_,_,rfl⟩
    | true => exact ⟨_,_,_,rfl⟩
  | some s =>
    cases cursor.visible with
    | false => exact ⟨_,_,_,rfl⟩
    | true => exact ⟨_,_,_,rfl⟩

/-- What holds of a painter and its terminal after a flush. -/
structure Flushed (mark : ℤ → Bool) (erased : σ → σ) (p p' : Painter σ) (t' : Term σ)
    (cursor : Cursor) : Prop where
  fits : Matches mark p' t'
  cur : p'.cur = p.cur
  shows : ∀ y < p.cur.h.toNat, ∀ x < p.cur.w.toNat, Shows erased (p.cur.line y x) (t'.cell y x)
  prev : ∀ y < p.cur.h.toNat, ∀ x < p.cur.w.toNat, p'.prev.line y x = p.cur.line y x
  full : p'.full = false
  painted : p'.painted = true
  caret : p'.lastCursor = cursor

lemma flush_spec (hfits : Matches mark p t) (hpaired : p.cur.Paired mark)
    (hbelieved : p.full = true ∨ Believed erased p t) (cursor : Cursor) :
    Flushed mark erased p (p.flush mark cursor).1 (t.read mark plain broken erased
      (p.flush mark cursor).2) cursor := by
  obtain ⟨t',htracked,hin,-⟩ :=
    @paintRows_spec _ _ mark plain broken erased p.cur p.prev p.full t t [] none none
    (List.range p.cur.h.toNat) List.nodup_range
    (fun y hy => hpaired y (List.mem_range.mp hy)) ⟨rfl,hfits.halved,fun _ hs => (by cases hs),
      hfits.width⟩ (fun _ _ hab => (by cases hab)) (by
      intro y hy x hx
      exact hbelieved.imp_right (fun hb => hb y (List.mem_range.mp hy) x hx))
  have hsize := @paintRows_size _ _ mark p.cur p.prev p.full [] none none (List.range p.cur.h.toNat)
  unfold Painter.flush
  dsimp only
  generalize paintRows mark p.cur p.full (List.range p.cur.h.toNat) p.prev [] none none =
    painted at htracked hin hsize ⊢
  obtain ⟨prev,out,style⟩ := painted
  dsimp only at htracked hin hsize ⊢
  have hprev : prev.w = p.cur.w ∧ prev.h = p.cur.h :=
    ⟨hsize.1.trans hfits.prev.1,hsize.2.trans hfits.prev.2⟩
  have hshows : ∀ y < p.cur.h.toNat, ∀ x < p.cur.w.toNat,
    Shows erased (p.cur.line y x) (t'.cell y x) :=
    fun y hy x hx => (hin y (List.mem_range.mpr hy) x hx).1
  have hrow : ∀ y < p.cur.h.toNat, ∀ x < p.cur.w.toNat, prev.line y x = p.cur.line y x :=
    fun y hy x hx => (hin y (List.mem_range.mpr hy) x hx).2
  split
  · rename_i hidle
    simp only [Bool.and_eq_true,Bool.not_eq_true',List.isEmpty_iff,List.append_eq_nil_iff,
      decide_eq_true_eq] at hidle
    obtain ⟨⟨⟨hpainted,hfull⟩,hempty,-⟩,hcursor⟩ := hidle
    have hsame : t' = t := by
      rw [← htracked.run,hempty]
      rfl
    rw [hsame] at hshows
    exact ⟨⟨hfits.width,hprev,hfits.halved⟩,rfl,hshows,hrow,hfull,hpainted,hcursor.symm⟩
  · obtain ⟨cx,cy,last,htail⟩ := @read_tail _ mark plain broken erased t' style cursor
    have hread : t.read mark plain broken erased (some (.hideCursor :: (out ++ styleEnd style) ++
      caret cursor)) = { t' with cx := cx, cy := cy, style := last } := by
      rw [← htail,← htracked.run,← List.foldl_append,← List.append_assoc]
      rfl
    rw [hread]
    exact ⟨⟨htracked.width,hprev,htracked.halved⟩,rfl,hshows,hrow,rfl,rfl,rfl⟩

end flush

/-- What a terminal may show where something else wrote to it. -/
structure Glass (σ : Type) (mark : ℤ → Bool) where
  cell : ℕ → ℕ → Cell σ
  halved : ∀ y, Halved mark (cell y)

/-- A painter with its terminal, and whether something was written that the painter does not know
of. -/
structure Display (σ : Type) where
  painter : Painter σ
  term : Term σ
  stale : Bool

/-- The UI draws a frame, resizes or invalidates; a flush is written, or its write fails and leaves
any part of it; something else writes. -/
inductive Act (σ : Type) (mark : ℤ → Bool)
  | draw (cell : ℤ → ℤ → Cell σ)
  | resize (w h : ℤ) (glass : Glass σ mark)
  | invalidate
  | flush (cursor : Cursor)
  | failed (cursor : Cursor) (glass : Glass σ mark)
  | scribble (glass : Glass σ mark)

section run
variable (mark plain broken erased)

def Display.step (s : Display σ) : Act σ mark → Display σ
  | .draw cell => { s with
    painter := { s.painter with cur := { s.painter.cur with cell := cell } } }
  | .resize w h glass =>
    if w = s.painter.cur.w ∧ h = s.painter.cur.h then s
    else { painter := s.painter.resize plain w h, term := { s.term with w := (max w 0).toNat, cell := glass.cell }, stale := false }
  | .invalidate => { s with painter := s.painter.invalidate, stale := false }
  | .flush cursor => { painter := (s.painter.flush mark cursor).1, term := s.term.read mark plain broken erased (s.painter.flush mark cursor).2, stale := s.stale && !s.painter.full }
  | .failed cursor glass =>
    { painter := (s.painter.flush mark cursor).1, term := { s.term with cell := glass.cell }, stale := true }
  | .scribble glass => { s with term := { s.term with cell := glass.cell }, stale := true }

/-- A new painter on a terminal that shows anything. -/
def Display.start (w h : ℤ) (glass : Glass σ mark) : Display σ :=
  ⟨newPainter plain w h,⟨(max w 0).toNat,glass.cell,0,0,plain⟩,false⟩

/-- Every frame that is flushed has its wide runes in pairs. -/
def Proper : Display σ → List (Act σ mark) → Prop
  | _,[] => True
  | s,a :: acts => (∀ cursor, a = .flush cursor → s.painter.cur.Paired mark) ∧
    Proper (s.step mark plain broken erased a) acts

variable {mark plain broken erased}

structure Display.Inv (mark : ℤ → Bool) (erased : σ → σ) (s : Display σ) : Prop where
  fits : Matches mark s.painter s.term
  known : s.stale = false → s.painter.full = true ∨ Believed erased s.painter s.term

omit [DecidableEq σ] in
/-- Whatever is written, the width stays and no second half is alone. -/
lemma exec_whole {t : Term σ} (h : ∀ y, Halved mark (t.cell y)) (o : Out σ) :
    (t.exec mark plain broken erased o).w = t.w ∧ ∀ y,
    Halved mark ((t.exec mark plain broken erased o).cell y) := by
  have hupdate : ∀ row, Halved mark row → ∀ y, Halved mark (Function.update t.cell t.cy row y) := by
    intro row hrow y
    by_cases hy : y = t.cy
    · rw [hy,Function.update_self]
      exact hrow
    · rw [Function.update_of_ne hy]
      exact h y
  cases o with
  | hideCursor => exact ⟨rfl,h⟩
  | showCursor => exact ⟨rfl,h⟩
  | moveTo x y => exact ⟨rfl,h⟩
  | style s => exact ⟨rfl,h⟩
  | reset => exact ⟨rfl,h⟩
  | eraseLine => exact ⟨rfl,hupdate _ (halved_eraseRow (h t.cy))⟩
  | put r comb =>
    unfold Term.exec
    dsimp only
    split
    · exact ⟨rfl,h⟩
    split
    · exact ⟨rfl,fun y i hcont => (by cases hcont)⟩
    · rename_i hr _
      exact ⟨rfl,hupdate _ (@halved_putRow _ mark broken (t.cell t.cy) t.cx ⟨r,comb,
        t.style⟩ (h t.cy) (by simpa [Cell.isContinuation] using hr))⟩

omit [DecidableEq σ] in
lemma read_whole {t : Term σ} (h : ∀ y, Halved mark (t.cell y)) (out : Option (List (Out σ))) :
    (t.read mark plain broken erased out).w = t.w ∧ ∀ y,
    Halved mark ((t.read mark plain broken erased out).cell y) := by
  cases out with
  | none => exact ⟨rfl,h⟩
  | some out =>
    unfold Term.read
    dsimp only
    induction out generalizing t with
    | nil => exact ⟨rfl,h⟩
    | cons o out ih =>
      have hone := @exec_whole _ mark plain broken erased t h o
      have hrest := ih hone.2
      exact ⟨hrest.1.trans hone.1,hrest.2⟩

lemma flush_size (p : Painter σ) (cursor : Cursor) : (p.flush mark cursor).1.cur = p.cur ∧
    (p.flush mark cursor).1.prev.w = p.prev.w ∧ (p.flush mark cursor).1.prev.h = p.prev.h := by
  unfold Painter.flush
  dsimp only
  split
  · exact ⟨rfl,paintRows_size _⟩
  · exact ⟨rfl,paintRows_size _⟩

omit [DecidableEq σ] in
lemma resize_size (b : Buffer σ) (w h : ℤ) :
    (b.resize plain w h).w = max w 0 ∧ (b.resize plain w h).h = max h 0 := by
  unfold Buffer.resize
  split
  · rename_i hsame
    exact hsame
  · exact ⟨rfl,rfl⟩

lemma Display.Inv.step {s : Display σ} (h : s.Inv mark erased) {a : Act σ mark}
    (hpaired : ∀ cursor, a = .flush cursor → s.painter.cur.Paired mark) :
    (s.step mark plain broken erased a).Inv mark erased := by
  cases a with
  | draw cell => exact ⟨⟨h.fits.width,h.fits.prev,h.fits.halved⟩,h.known⟩
  | resize w' h' glass =>
    unfold Display.step
    dsimp only
    split
    · exact h
    · rename_i hdiff
      unfold Painter.resize
      rw [if_neg hdiff]
      have hcur := @resize_size _ plain s.painter.cur w' h'
      have hprev := @resize_size _ plain s.painter.prev w' h'
      exact ⟨⟨congrArg Int.toNat hcur.1.symm,⟨hprev.1.trans hcur.1.symm,hprev.2.trans hcur.2.symm⟩,
        glass.halved⟩,fun _ => Or.inl rfl⟩
  | invalidate => exact ⟨⟨h.fits.width,h.fits.prev,h.fits.halved⟩,fun _ => Or.inl rfl⟩
  | flush cursor =>
    obtain ⟨hcur,hw,hh⟩ := @flush_size _ _ mark s.painter cursor
    have hwhole := @read_whole _ mark plain broken erased s.term h.fits.halved
      (s.painter.flush mark cursor).2
    refine ⟨⟨?_,?_,hwhole.2⟩,fun hstale => ?_⟩
    · exact hwhole.1.trans (h.fits.width.trans (by rw [← hcur]; rfl))
    · change (s.painter.flush mark cursor).1.prev.w = (s.painter.flush mark cursor).1.cur.w ∧
        (s.painter.flush mark cursor).1.prev.h = (s.painter.flush mark cursor).1.cur.h
      rw [hcur,hw,hh]
      exact h.fits.prev
    · have hknown : s.painter.full = true ∨ Believed erased s.painter s.term := by
        obtain hs | hf := Bool.and_eq_false_iff.mp hstale
        · exact h.known hs
        · exact Or.inl (by simpa using hf)
      have hflushed := @flush_spec _ _ mark plain broken erased s.painter s.term h.fits
        (hpaired cursor rfl) hknown cursor
      refine Or.inr (fun y hy x hx => ?_)
      change y < (s.painter.flush mark cursor).1.cur.h.toNat at hy
      change x < (s.painter.flush mark cursor).1.cur.w.toNat at hx
      change Shows erased ((s.painter.flush mark cursor).1.prev.line y x) _
      rw [hcur] at hy hx
      rw [hflushed.prev y hy x hx]
      exact hflushed.shows y hy x hx
  | failed cursor glass =>
    obtain ⟨hcur,hw,hh⟩ := @flush_size _ _ mark s.painter cursor
    refine ⟨⟨?_,?_,glass.halved⟩,fun hstale => (by cases hstale)⟩
    · change s.term.w = (s.painter.flush mark cursor).1.cur.w.toNat
      rw [hcur]
      exact h.fits.width
    · change (s.painter.flush mark cursor).1.prev.w = (s.painter.flush mark cursor).1.cur.w ∧
        (s.painter.flush mark cursor).1.prev.h = (s.painter.flush mark cursor).1.cur.h
      rw [hcur,hw,hh]
      exact h.fits.prev
  | scribble glass =>
    exact ⟨⟨h.fits.width,h.fits.prev,glass.halved⟩,fun hstale => (by cases hstale)⟩

lemma Display.Inv.run {s : Display σ} (h : s.Inv mark erased) {acts : List (Act σ mark)}
    (hproper : Proper mark plain broken erased s acts) :
    (acts.foldl (Display.step mark plain broken erased) s).Inv mark erased := by
  induction acts generalizing s with
  | nil => exact h
  | cons a acts ih => exact ih (h.step hproper.1) hproper.2

omit [DecidableEq σ] in
lemma Display.Inv.start (w h : ℤ) (glass : Glass σ mark) :
    (Display.start mark plain w h glass).Inv mark erased :=
  ⟨⟨rfl,⟨rfl,rfl⟩,glass.halved⟩,fun _ => Or.inl rfl⟩

end run
end Manvi.Render
