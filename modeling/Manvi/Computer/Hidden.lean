import Manvi.Computer.Scrub

/-! Which watched values the scrub hides whole, told by their occurrences in the text. -/
namespace Manvi.Computer
open Manvi.Encoding

variable {watched : List Bytes} {text : Bytes}

/-- What the stand-in for some values can be turned into, by values that are found in it and by
others beside it. -/
inductive Marked (watched : List Bytes) : Bytes → Prop
  | alone : Marked watched redacted
  | beside {a b : Bytes} (ha : Marked watched a) (hb : Marked watched b) : Marked watched (a ++ b)
  | within {a v b : Bytes} (hv : v ∈ watched) (hne : v ≠ []) (h : Marked watched (a ++ v ++ b)) :
      Marked watched (a ++ redacted ++ b)

/-- A chosen occurrence of one of the first values starts at a place, or ends there. -/
def Starts (watched : List Bytes) (text : Bytes) (j c : ℕ) : Prop :=
  ∃ i < j, Chosen watched text i c

def Ends (watched : List Bytes) (text : Bytes) (j e : ℕ) : Prop :=
  ∃ i < j, ∃ k, Chosen watched text i k ∧ k+(watched.getD i []).length = e

/-- Some bytes go on as the text does from a place on, at least up to the start of a chosen
occurrence. -/
def GoesOn (watched : List Bytes) (text : Bytes) (j e : ℕ) (b : Bytes) : Prop :=
  ∃ d, d ≠ [] ∧ d <+: b ∧ d <+: text.drop e ∧ (d = b ∨ Starts watched text j (e+d.length))

/-- A value in two parts that is found over the edge of a stand-in: text before and the stand-in
behind, or the stand-in before and text behind. -/
inductive Joins (watched : List Bytes) (text : Bytes) (j : ℕ) (a b : Bytes) : Prop
  | before {m : Bytes} {k : ℕ} (hm : Marked watched m) (hk : Starts watched text j k)
      (ha : a <:+ text.take k)
      (hb : b <+: m ∨ ∃ d e, b = m ++ d ∧ Ends watched text j e ∧ GoesOn watched text j e d)
  | behind {m : Bytes} {e : ℕ} (hm : Marked watched m) (he : Ends watched text j e) (ha : a <:+ m)
      (hb : GoesOn watched text j e b)

/-- No watched value can be found over the edge of what stands for earlier ones. -/
def Unjoined (watched : List Bytes) (text : Bytes) : Prop :=
  ∀ j a b, watched.getD j [] = a ++ b → a ≠ [] → b ≠ [] → ¬ Joins watched text j a b

/-! Stand-ins. -/

lemma Marked.ends {m : Bytes} (h : Marked watched m) :
    m.head? = some 91 ∧ m.getLast? = some 93 := by
  induction h with
  | alone => decide
  | beside _ _ iha ihb =>
    rw [List.head?_append,iha.1,List.getLast?_append,ihb.2]
    exact ⟨rfl,rfl⟩
  | @within a v b _ hne _ ih =>
    rw [List.append_assoc,List.head?_append,List.getLast?_append] at ih
    rw [List.append_assoc,List.head?_append,List.getLast?_append]
    constructor
    · cases a with
      | nil => rfl
      | cons x a => exact ih.1
    · cases hb : b.getLast? with
      | none =>
        rw [List.getLast?_eq_none_iff.mp hb]
        rfl
      | some x =>
        have hlast := ih.2
        rw [List.getLast?_append,hb] at hlast ⊢
        exact hlast

lemma Marked.ne_nil {m : Bytes} (h : Marked watched m) : m ≠ [] := by
  rintro rfl
  exact absurd h.ends.1 (by simp)

/-- What is hidden by the first passes. -/
def Gone (watched : List Bytes) (text : Bytes) (j : ℕ) : ℕ → Prop :=
  hiddenAll text (fun _ => False) (watched.take j)

/-- The text from a place on after the first passes: bytes that are there, and stand-ins for
stretches that are gone. The bytes of a stand-in that were read already are kept in front. -/
inductive Veil (watched : List Bytes) (text : Bytes) (j : ℕ) : Bytes → ℕ → List Cell → Prop
  | done {r : Bytes} {c : ℕ} (h : text.length ≤ c) (hrun : r = [] ∨ Marked watched r) :
      Veil watched text j r c []
  | keep {r : Bytes} {c : ℕ} {b : UInt8} {s : List Cell} (hb : text[c]? = some b)
      (hfree : ¬ Gone watched text j c)
      (hrun : r = [] ∨ Marked watched r ∧ Ends watched text j c)
      (rest : Veil watched text j [] (c+1) s) :
      Veil watched text j r c ((b,some c) :: s)
  | mark {r : Bytes} {c c' : ℕ} {b : UInt8} {s : List Cell} (hle : c ≤ c')
      (hgone : ∀ t, c ≤ t → t < c' → Gone watched text j t)
      (hstart : r = [] → Starts watched text j c)
      (rest : Veil watched text j (r ++ [b]) c' s) : Veil watched text j r c ((b,none) :: s)

section veil
variable {j c c' p fuel : ℕ} {r m v x y : Bytes} {s : List Cell}

/-- The places that are there are those that are not gone. -/
lemma Veil.mem_places (h : Veil watched text j r c s) :
    p ∈ places s ↔ c ≤ p ∧ p < text.length ∧ ¬ Gone watched text j p := by
  induction h with
  | done h _ =>
    refine iff_of_false (fun hmem => (by cases hmem)) ?_
    rintro ⟨hle,hlt,-⟩
    omega
  | @keep r c b s hb hfree _ _ ih =>
    have hlt := (List.getElem?_eq_some_iff.mp hb).1
    have hplaces : places ((b,some c) :: s) = c :: places s := rfl
    rw [hplaces,List.mem_cons,ih]
    constructor
    · rintro (rfl | ⟨hle,hin⟩)
      · exact ⟨le_refl _,hlt,hfree⟩
      · exact ⟨by omega,hin⟩
    · rintro ⟨hle,hin⟩
      obtain rfl | hlt := Nat.eq_or_lt_of_le hle
      · exact .inl rfl
      · exact .inr ⟨hlt,hin⟩
  | @mark r c c' b s hle hgone _ _ ih =>
    have hplaces : places ((b,none) :: s) = places s := rfl
    rw [hplaces,ih]
    constructor
    · rintro ⟨hge,hin⟩
      exact ⟨by omega,hin⟩
    · rintro ⟨hge,hlen,hfree⟩
      refine ⟨?_,hlen,hfree⟩
      by_contra hlt
      exact hfree (hgone p hge (by omega))

/-- A stand-in that is begun goes on to its end. -/
lemma Veil.run (h : Veil watched text j r c s) (hne : r ≠ []) : ∃ b, Marked watched (r ++ b) := by
  induction h with
  | done _ hrun => exact ⟨[],by rw [List.append_nil]; exact hrun.resolve_left hne⟩
  | keep _ _ hrun _ _ => exact ⟨[],by rw [List.append_nil]; exact (hrun.resolve_left hne).1⟩
  | @mark r c c' b s _ _ _ _ ih =>
    obtain ⟨rest,hrest⟩ := ih (by simp)
    exact ⟨b :: rest,by rw [List.append_assoc] at hrest; exact hrest⟩

/-- A stand-in may have another in front. -/
lemma Veil.behind (h : Veil watched text j r c s) (hm : Marked watched m)
    (hend : r = [] → Ends watched text j c) :
    Veil watched text j (m ++ r) c s := by
  induction h with
  | @done r c h hrun =>
    refine .done h (.inr ?_)
    obtain rfl | hr := hrun
    · rw [List.append_nil]
      exact hm
    · exact .beside hm hr
  | @keep r c b s hb hfree hrun rest _ =>
    refine .keep hb hfree (.inr ?_) rest
    obtain rfl | ⟨hr,hc⟩ := hrun
    · rw [List.append_nil]
      exact ⟨hm,hend rfl⟩
    · exact ⟨.beside hm hr,hc⟩
  | @mark r c c' b s hle hgone hstart rest ih =>
    refine .mark hle hgone (fun hnil => (hm.ne_nil (List.append_eq_nil_iff.mp hnil).1).elim) ?_
    rw [List.append_assoc]
    exact ih (by simp)

/-- A value that is found in a stand-in is replaced there. -/
lemma Veil.again (h : Veil watched text j (x ++ v ++ y) c s) (hv : v ∈ watched) (hne : v ≠ []) :
    Veil watched text j (x ++ redacted ++ y) c s := by
  generalize hr : x ++ v ++ y = r at h
  induction h generalizing y with
  | done h hrun =>
    subst hr
    exact .done h (.inr (.within hv hne (hrun.resolve_left (by simp [hne]))))
  | keep hb hfree hrun rest _ =>
    subst hr
    obtain ⟨hm,hc⟩ := hrun.resolve_left (by simp [hne])
    exact .keep hb hfree (.inr ⟨.within hv hne hm,hc⟩) rest
  | @mark r c c' b s hle hgone hstart rest ih =>
    refine .mark hle hgone (fun hnil => absurd hnil (by simp [redacted,ascii])) ?_
    have hrest := @ih (y ++ [b]) (by rw [← hr]; simp)
    rw [← List.append_assoc] at hrest
    exact hrest

/-- Some bytes of a stand-in in front. -/
lemma Veil.marks (h : Veil watched text j (r ++ m) c' s) (hne : m ≠ []) (hle : c ≤ c')
    (hgone : ∀ t, c ≤ t → t < c' → Gone watched text j t)
    (hstart : r = [] → Starts watched text j c) :
    Veil watched text j r c (m.map (fun b => (b,none)) ++ s) := by
  induction m generalizing r c with
  | nil => exact (hne rfl).elim
  | cons b m ih =>
    cases m with
    | nil => exact .mark hle hgone hstart h
    | cons b' m =>
      have hrest : Veil watched text j (r ++ [b] ++ (b' :: m)) c' s := by
        rw [List.append_assoc]
        exact h
      refine .mark (le_refl c) (fun t hge hlt => by omega) hstart ?_
      exact ih hrest (by simp) hle hgone (by simp)

/-- Bytes at a place that is there go on as the text does. -/
lemma Veil.goesOn {b : UInt8} (h : Veil watched text j r c ((b,some c) :: s))
    (hpre : v <+: ((b,some c) :: s).map Prod.fst)
    (hne : v ≠ []) : GoesOn watched text j c v := by
  induction v generalizing r c b s with
  | nil => exact (hne rfl).elim
  | cons b' v ih =>
    obtain ⟨rfl,htail⟩ := List.cons_prefix_cons.mp hpre
    cases h with
    | keep hb _ _ rest =>
      have hone : [b'] <+: text.drop c := (prefix_cons_drop hb).mpr List.nil_prefix
      cases v with
      | nil => exact ⟨[b'],by simp,List.prefix_refl _,hone,.inl rfl⟩
      | cons b'' v =>
        cases rest with
        | done => simp at htail
        | keep hb' hfree' hrun' rest' =>
          obtain ⟨d,-,hdv,hdt,hend⟩ := ih (.keep hb' hfree' hrun' rest') htail (by simp)
          refine ⟨b' :: d,by simp,List.cons_prefix_cons.mpr ⟨rfl,hdv⟩,
            (prefix_cons_drop hb).mpr hdt,?_⟩
          obtain rfl | hstart := hend
          · exact .inl rfl
          · refine .inr ?_
            rw [List.length_cons,← Nat.add_assoc,Nat.add_right_comm]
            exact hstart
        | mark _ _ hstart _ =>
          exact ⟨[b'],by simp,List.cons_prefix_cons.mpr ⟨rfl,List.nil_prefix⟩,hone,
            .inr (hstart rfl)⟩

/-- Bytes that are found from some that were read of a stand-in on are bytes of it, or reach over
its end. -/
lemma Veil.inside (h : Veil watched text j r c s) (hpre : v <+: s.map Prod.fst) (hne : r ≠ []) :
    (∃ c', c ≤ c' ∧ (∀ t, c ≤ t → t < c' → Gone watched text j t) ∧
      Veil watched text j (r ++ v) c' (s.drop v.length)) ∨
      ∃ a b e, v = a ++ b ∧ b ≠ [] ∧ Marked watched (r ++ a) ∧ Ends watched text j e ∧
      GoesOn watched text j e b := by
  induction v generalizing r c s with
  | nil => exact .inl ⟨c,le_refl c,fun t hge hlt => by omega,by rw [List.append_nil]; exact h⟩
  | cons b v ih =>
    cases h with
    | done => simp at hpre
    | keep hb hfree hrun rest =>
      obtain ⟨hm,hend⟩ := hrun.resolve_left hne
      have hgoes := (Veil.keep hb hfree hrun rest).goesOn hpre (List.cons_ne_nil b v)
      exact .inr ⟨[],b :: v,c,rfl,by simp,by rw [List.append_nil]; exact hm,hend,hgoes⟩
    | @mark _ _ c' _ _ hle hgone hstart rest =>
      obtain ⟨rfl,htail⟩ := List.cons_prefix_cons.mp hpre
      obtain ⟨c'',hle',hgone',hveil⟩ | ⟨a,d,e,rfl,hd,hm,hend,hgoes⟩ := ih rest htail (by simp)
      · refine .inl ⟨c'',hle.trans hle',fun t hge hlt => ?_,?_⟩
        · by_cases ht : t < c'
          · exact hgone t hge ht
          · exact hgone' t (not_lt.mp ht) hlt
        · rw [List.append_assoc] at hveil
          exact hveil
      · refine .inr ⟨b :: a,d,e,rfl,hd,?_,hend,hgoes⟩
        rw [List.append_assoc] at hm
        exact hm

/-- A value that is found from a place that is there on stands in the text, or reaches a
stand-in. -/
lemma Veil.outside (h : Veil watched text j [] c s) (hpre : v <+: s.map Prod.fst) :
    (v <+: text.drop c ∧ (∀ t, c ≤ t → t < c+v.length → ¬ Gone watched text j t) ∧
      Veil watched text j [] (c+v.length) (s.drop v.length)) ∨
      ∃ a b m, v = a ++ b ∧ b ≠ [] ∧ Marked watched m ∧ Starts watched text j (c+a.length) ∧
      a <+: text.drop c ∧
        (b <+: m ∨ ∃ d e, b = m ++ d ∧ Ends watched text j e ∧ GoesOn watched text j e d) := by
  induction v generalizing c s with
  | nil => exact .inl ⟨List.nil_prefix,fun t hge hlt => by rw [List.length_nil] at hlt; omega,h⟩
  | cons b v ih =>
    cases h with
    | done => simp at hpre
    | keep hb hfree hrun rest =>
      obtain ⟨rfl,htail⟩ := List.cons_prefix_cons.mp hpre
      obtain ⟨hstands,hthere,hveil⟩ | ⟨a,d,m,rfl,hd,hm,hstart,ha,hjoin⟩ := ih rest htail
      · refine .inl ⟨(prefix_cons_drop hb).mpr hstands,fun t hge hlt => ?_,?_⟩
        · obtain rfl | hlt' := Nat.eq_or_lt_of_le hge
          · exact hfree
          · exact hthere t hlt' (by rw [List.length_cons] at hlt; omega)
        · rw [List.length_cons,← Nat.add_assoc,Nat.add_right_comm]
          exact hveil
      · refine .inr ⟨b :: a,d,m,rfl,hd,hm,?_,(prefix_cons_drop hb).mpr ha,hjoin⟩
        rw [List.length_cons,← Nat.add_assoc,Nat.add_right_comm]
        exact hstart
    | mark hle hgone hstart rest =>
      obtain ⟨rfl,htail⟩ := List.cons_prefix_cons.mp hpre
      right
      obtain ⟨c'',_,_,hveil⟩ | ⟨a,d,e,rfl,hd,hm,hend,hgoes⟩ := rest.inside htail (by simp)
      · obtain ⟨rest',hm⟩ := hveil.run (by simp)
        exact ⟨[],b :: v,_,rfl,by simp,hm,hstart rfl,List.nil_prefix,.inl (List.prefix_append _ _)⟩
      · exact ⟨[],b :: (a ++ d),_,rfl,by simp,hm,hstart rfl,List.nil_prefix,
          .inr ⟨d,e,rfl,hend,hgoes⟩⟩

lemma gone_iff (hj : j ≤ watched.length) : Gone watched text j p ↔ InChosen watched text j p :=
    hiddenAll_take hj

lemma gone_succ (hj : j < watched.length) :
    Gone watched text (j+1) = hiddenBy text (Gone watched text j) (watched.getD j []) := by
  unfold Gone hiddenAll
  rw [List.take_succ_eq_append_getElem hj,List.foldl_append,List.getD_eq_getElem _ _ hj]
  rfl

lemma Starts.gone (hj : j ≤ watched.length) (h : Starts watched text j c) :
    Gone watched text j c := by
  obtain ⟨i,hi,hchosen⟩ := h
  have hpos := hchosen.pos
  exact (gone_iff hj).mpr ⟨i,hi,c,hchosen,le_refl c,by omega⟩

lemma Starts.succ (h : Starts watched text j c) : Starts watched text (j+1) c := by
  obtain ⟨i,hi,hchosen⟩ := h
  exact ⟨i,Nat.lt_succ_of_lt hi,hchosen⟩

lemma Ends.succ (h : Ends watched text j c) : Ends watched text (j+1) c := by
  obtain ⟨i,hi,hchosen⟩ := h
  exact ⟨i,Nat.lt_succ_of_lt hi,hchosen⟩

/-- A value that stands where nothing is gone is found. -/
lemma Veil.found (hj : j ≤ watched.length) (h : Veil watched text j [] c s)
    (hstands : StandsFree text (Gone watched text j) v c) : v <+: s.map Prod.fst := by
  induction v generalizing c s with
  | nil => exact List.nil_prefix
  | cons b v ih =>
    obtain ⟨hpre,hfree⟩ := hstands
    have hc := hfree c (le_refl c) (by simp)
    cases h with
    | done h =>
      rw [List.drop_eq_nil_iff.mpr h] at hpre
      cases List.prefix_nil.mp hpre
    | keep hb _ _ rest =>
      obtain ⟨hlt,hget⟩ := List.getElem?_eq_some_iff.mp hb
      rw [List.drop_eq_getElem_cons hlt,hget] at hpre
      obtain ⟨rfl,htail⟩ := List.cons_prefix_cons.mp hpre
      refine List.cons_prefix_cons.mpr ⟨rfl,ih rest ⟨htail,fun t hge hlt => hfree t (by omega) ?_⟩⟩
      rw [List.length_cons]
      omega
    | mark _ _ hstart _ => exact (hc ((hstart rfl).gone hj)).elim

/-- Where no value joins a stand-in, a pass hides what is taken of its value. -/
lemma Veil.pass (hun : Unjoined watched text) (hj : j < watched.length)
    (hv : watched.getD j [] ≠ [])
    (h : Veil watched text j r c s) (hfuel : s.length ≤ fuel)
    (hc : Arrives (StandsFree text (Gone watched text j) (watched.getD j []))
      (watched.getD j []).length c) :
    Veil watched text (j+1) r c (replaceFrom Prod.fst (watched.getD j [])
      (redacted.map (fun b => (b,none))) fuel s) := by
  have hmem : watched.getD j [] ∈ watched := by
    rw [List.getD_eq_getElem _ _ hj]
    exact List.getElem_mem hj
  have hunjoined := hun j
  have hchosen : ∀ k, Takes (StandsFree text (Gone watched text j) (watched.getD j []))
    (watched.getD j []).length k →
      Chosen watched text j k := fun k => (takes_iff_chosen (fun p => gone_iff hj.le) hv).mp
  have hgone : ∀ t, Gone watched text (j+1) t ↔
    hiddenBy text (Gone watched text j) (watched.getD j []) t := fun t => by
    rw [gone_succ hj]
  generalize hw : watched.getD j [] = v at hmem hunjoined hchosen hgone hv hc ⊢
  have hpos := List.length_pos_iff.mpr hv
  have hdrop : ∀ (fuel : ℕ) (e : Cell) (s : List Cell), (e :: s).length ≤ fuel+1 →
    ((e :: s).drop v.length).length ≤ fuel := by
    intro fuel e s hlen
    rw [List.length_drop]
    omega
  have hmono : ∀ t, Gone watched text j t → Gone watched text (j+1) t :=
    fun t ht => (hgone t).mpr (.inl ht)
  induction fuel generalizing r c s with
  | zero =>
    have hnil : s = [] := List.length_eq_zero_iff.mp (by omega)
    subst hnil
    cases h with
    | done h hrun => exact .done h hrun
  | succ fuel ih =>
    cases h with
    | done h hrun => exact .done h hrun
    | @keep _ _ b s hb hfree hrun rest =>
      have hkept : Veil watched text j [] c ((b,some c) :: s) := .keep hb hfree (.inl rfl) rest
      have hrun' : r = [] ∨ Marked watched r ∧ Ends watched text (j+1) c :=
        hrun.imp_right fun hm => ⟨hm.1,hm.2.succ⟩
      rw [replaceFrom]
      by_cases hpre : v <+: ((b,some c) :: s).map Prod.fst
      · rw [if_pos hpre]
        obtain ⟨hstands,hthere,hveil⟩ | ⟨x,y,m,hxy,hy,hm,hstart,hx,hjoin⟩ := hkept.outside hpre
        · have htakes := hc.takes ⟨hstands,hthere⟩
          have hrest := ih hveil (hdrop _ _ _ hfuel) (hc.jump ⟨hstands,hthere⟩)
          have hlong : Marked watched (r ++ redacted) := by
            obtain rfl | hm := hrun
            · exact .alone
            · exact .beside hm.1 .alone
          have hmarked := hrest.behind hlong fun _ => ⟨j,Nat.lt_succ_self j,c,hchosen c htakes,
            by rw [hw]⟩
          rw [List.append_nil] at hmarked
          refine hmarked.marks (by simp [redacted,ascii]) (Nat.le_add_right c v.length)
            (fun t hge hlt => ?_) fun _ => ?_
          · exact (hgone t).mpr (.inr ⟨c,htakes,hge,hlt⟩)
          · exact ⟨j,Nat.lt_succ_self j,hchosen c htakes⟩
        · have hne : x ≠ [] := by
            rintro rfl
            exact hfree (Starts.gone hj.le hstart)
          have hbefore : x <:+ text.take (c+x.length) := by
            rw [List.take_add,← List.prefix_iff_eq_take.mp hx]
            exact List.suffix_append _ _
          exact (hunjoined x y hxy hne hy (.before hm hstart hbefore hjoin)).elim
      · rw [if_neg hpre]
        have hnot : ¬ StandsFree text (Gone watched text j) v c :=
          fun hs => hpre (hkept.found hj.le hs)
        refine .keep hb ?_ hrun' (ih rest (by rw [List.length_cons] at hfuel; omega) (hc.next hnot))
        rw [hgone]
        rintro (hhid | ⟨k,htakes,hle,hlt⟩)
        · exact hfree hhid
        · obtain rfl | hkc := Nat.eq_or_lt_of_le hle
          · exact hnot (takes_iff.mp htakes).1
          · exact hc k hkc hlt htakes
    | @mark _ _ c' b s hle hgone' hstart rest =>
      have harrives : ∀ e, c ≤ e → (∀ t, c ≤ t → t < e → Gone watched text j t) →
          Arrives (StandsFree text (Gone watched text j) v) v.length e := by
        intro e hce hin
        obtain rfl | hlt := Nat.eq_or_lt_of_le hce
        · exact hc
        · exact arrives_behind hlt hin
      rw [replaceFrom]
      by_cases hpre : v <+: ((b,none) :: s).map Prod.fst
      · rw [if_pos hpre]
        obtain ⟨b',v',rfl⟩ := List.exists_cons_of_ne_nil hv
        obtain ⟨rfl,htail⟩ := List.cons_prefix_cons.mp hpre
        obtain ⟨e,hce,hin,hveil⟩ | ⟨x,y,e,rfl,hy,hm,hend,hgoes⟩ := rest.inside htail (by simp)
        · have hall : ∀ t, c ≤ t → t < e → Gone watched text j t := by
            intro t hge hlt
            by_cases ht : t < c'
            · exact hgone' t hge ht
            · exact hin t (not_lt.mp ht) hlt
          have hrest := ih hveil (hdrop _ _ _ hfuel) (harrives e (hle.trans hce) hall)
          rw [List.append_assoc,List.singleton_append,← List.append_nil (r ++ _)] at hrest
          have hagain := hrest.again hmem hv
          rw [List.append_nil] at hagain
          exact hagain.marks (by simp [redacted,ascii]) (hle.trans hce) (fun t hge hlt =>
            hmono t (hall t hge hlt))
            fun hnil => (hstart hnil).succ
        · refine (hunjoined (b' :: x) y rfl (by simp) hy (.behind hm hend ⟨r,?_⟩ hgoes)).elim
          rw [List.append_assoc]
          rfl
      · rw [if_neg hpre]
        refine .mark hle (fun t hge hlt => hmono t (hgone' t hge hlt)) (fun hnil =>
          (hstart hnil).succ) ?_
        exact ih rest (by rw [List.length_cons] at hfuel; omega) (harrives c' hle hgone')

/-- A value without bytes hides nothing. -/
lemma Veil.idle (hj : j < watched.length) (hv : watched.getD j [] = [])
    (h : Veil watched text j r c s) :
    Veil watched text (j+1) r c s := by
  have hsame : ∀ t, Gone watched text (j+1) t ↔ Gone watched text j t := by
    intro t
    rw [gone_succ hj,hv,hiddenBy]
    refine or_iff_left ?_
    rintro ⟨k,-,hle,hlt⟩
    rw [List.length_nil] at hlt
    omega
  induction h with
  | done h hrun => exact .done h hrun
  | keep hb hfree hrun _ ih =>
    exact .keep hb (mt (hsame _).mp hfree) (hrun.imp_right fun hm => ⟨hm.1,hm.2.succ⟩) ih
  | mark hle hgone hstart _ ih =>
    exact .mark hle (fun t hge hlt => (hsame t).mpr (hgone t hge hlt)) (fun hnil =>
      (hstart hnil).succ) ih

end veil

end Manvi.Computer
