import Mathlib

/-! Ordering the nodes of a finite graph by counting what each of them still waits for. -/
namespace Manvi.Graph
variable {ν : Type} [LinearOrder ν]

def sorted (l : List ν) : List ν := l.mergeSort (fun a b => decide (a ≤ b))

/-- The nodes in order so far, those that wait for nothing more, and how much each waits for. -/
structure Queue (ν : Type) where
  out : List ν
  ready : List ν
  waits : ν → ℕ

/-- A node waits for one less, and is ready when it waits for nothing. -/
def release (s : Queue ν) (n : ν) : Queue ν :=
  let waits := Function.update s.waits n (s.waits n-1)
  if waits n = 0 then ⟨s.out,sorted (s.ready ++ [n]),waits⟩ else ⟨s.out,s.ready,waits⟩

/-- Take the first ready node and release those behind it, so many times at most. -/
def order (next : ν → List ν) : ℕ → Queue ν → Queue ν
  | 0,s => s
  | fuel+1,s => match s.ready with
    | [] => s
    | n :: ready => order next fuel ((sorted (next n)).foldl release ⟨s.out ++ [n],ready,s.waits⟩)

lemma perm_sorted (l : List ν) : (sorted l).Perm l := List.mergeSort_perm ..

@[simp] lemma mem_sorted {l : List ν} {n : ν} : n ∈ sorted l ↔ n ∈ l := (perm_sorted l).mem_iff

/-- Sorting forgets the order. -/
lemma sorted_congr {l l' : List ν} (h : l.Perm l') : sorted l = sorted l' := by
  have htrans : ∀ a b c : ν, decide (a ≤ b) = true → decide (b ≤ c) = true →
    decide (a ≤ c) = true := by
    intro a b c hab hbc
    exact decide_eq_true (le_trans (of_decide_eq_true hab) (of_decide_eq_true hbc))
  have htotal : ∀ a b : ν, (decide (a ≤ b) || decide (b ≤ a)) = true := by
    intro a b
    simpa using le_total a b
  have hsorted : ∀ l : List ν, (sorted l).Pairwise (fun a b => a ≤ b) := by
    intro l
    exact (List.pairwise_mergeSort htrans htotal l).imp (fun hab => of_decide_eq_true hab)
  exact ((perm_sorted l).trans (h.trans (perm_sorted l').symm)).eq_of_pairwise
    (fun a b _ _ hab hba => le_antisymm hab hba) (hsorted l) (hsorted l')

section release
variable {s : Queue ν} {l : List ν}

/-- What releasing some nodes leaves. -/
structure Released (s s' : Queue ν) (l : List ν) : Prop where
  out : s'.out = s.out
  waits : ∀ m, s'.waits m = s.waits m-l.count m
  nodup : s'.ready.Nodup
  zero : ∀ m ∈ s'.ready, s'.waits m = 0
  mem : ∀ m, m ∈ s'.ready ↔ m ∈ s.ready ∨ (m ∈ l ∧ s'.waits m = 0)

lemma release_waits (s : Queue ν) (n : ν) :
    (release s n).waits = Function.update s.waits n (s.waits n-1) := by
  unfold release
  dsimp only
  split
  · rfl
  · rfl

lemma release_out (s : Queue ν) (n : ν) : (release s n).out = s.out := by
  unfold release
  dsimp only
  split
  · rfl
  · rfl

@[simp] lemma mem_release {n m : ν} :
    m ∈ (release s n).ready ↔ m ∈ s.ready ∨ (m = n ∧ s.waits n-1 = 0) := by
  unfold release
  dsimp only
  rw [Function.update_self]
  split
  · rename_i hzero
    rw [mem_sorted,List.mem_append,List.mem_singleton]
    simp [hzero]
  · rename_i hpos
    simp [hpos]

lemma release_nodup {n : ν} (hnodup : s.ready.Nodup) (hnew : n ∉ s.ready) :
    (release s n).ready.Nodup := by
  unfold release
  dsimp only
  split
  · rw [(perm_sorted _).nodup_iff,List.nodup_append]
    refine ⟨hnodup,List.nodup_singleton n,fun a ha b hb => ?_⟩
    rw [List.mem_singleton.mp hb]
    rintro rfl
    exact hnew ha
  · exact hnodup

lemma foldl_release (hnodup : s.ready.Nodup) (hzero : ∀ m ∈ s.ready, s.waits m = 0)
    (hcount : ∀ m, l.count m ≤ s.waits m) :
    Released s (l.foldl release s) l := by
  induction l generalizing s with
  | nil =>
    exact ⟨rfl,fun m => (Nat.sub_zero _).symm,hnodup,hzero,
      fun m => ⟨Or.inl,fun h => h.elim id (fun h => (by cases h.1))⟩⟩
  | cons n l ih =>
    have hn : 1 ≤ s.waits n := by
      have hle := hcount n
      rw [List.count_cons_self] at hle
      omega
    have hnew : n ∉ s.ready := fun hin => by
      have := hzero n hin
      omega
    have hless : ∀ m, (release s n).waits m = s.waits m-[n].count m := by
      intro m
      rw [release_waits]
      by_cases hm : m = n
      · rw [hm,Function.update_self,List.count_singleton_self]
      · rw [Function.update_of_ne hm,List.count_singleton,
          if_neg (by simpa using fun h => hm h.symm),Nat.sub_zero]
    have hsplit : ∀ m, (n :: l).count m = [n].count m+l.count m := by
      intro m
      rw [← List.count_append,List.singleton_append]
    obtain ⟨hout,hwaits,hnodup',hzero',hmem⟩ := @ih (release s n) (release_nodup hnodup hnew) (by
      intro m hm
      obtain hm | ⟨rfl,hone⟩ := mem_release.mp hm
      · rw [hless m,hzero m hm,Nat.zero_sub]
      · rw [hless m,List.count_singleton_self,hone]) (by
      intro m
      have hle := hcount m
      rw [hsplit m] at hle
      rw [hless m]
      omega)
    refine ⟨hout.trans (release_out s n),fun m => ?_,hnodup',hzero',fun m => ?_⟩
    · rw [List.foldl_cons,hwaits m,hless m,hsplit m]
      omega
    · rw [List.foldl_cons,hmem m,mem_release,List.mem_cons]
      constructor
      · rintro ((hin | ⟨rfl,hone⟩) | ⟨hin,hz⟩)
        · exact Or.inl hin
        · refine Or.inr ⟨Or.inl rfl,?_⟩
          rw [hwaits m,hless m,List.count_singleton_self,hone,Nat.zero_sub]
        · exact Or.inr ⟨Or.inr hin,hz⟩
      · rintro (hin | ⟨rfl | hin,hz⟩)
        · exact Or.inl (Or.inl hin)
        · by_cases hagain : m ∈ l
          · exact Or.inr ⟨hagain,hz⟩
          · refine Or.inl (Or.inr ⟨rfl,?_⟩)
            rw [hwaits m,hless m,List.count_singleton_self,List.count_eq_zero.mpr hagain] at hz
            exact hz
        · exact Or.inr ⟨hin,hz⟩

lemma Released.of_perm {s' : Queue ν} {l' : List ν} (hl : l.Perm l') (h : Released s s' l) :
    Released s s' l' := by
  refine ⟨h.out,fun m => ?_,h.nodup,h.zero,fun m => ?_⟩
  · rw [h.waits m,hl.count_eq m]
  · rw [h.mem m,hl.mem_iff]

end release

section run
variable (nodes : Finset ν) (next : ν → List ν)

/-- One node of the graph is directly before another. -/
def Edge (p n : ν) : Prop := p ∈ nodes ∧ n ∈ next p

def Acyclic : Prop := ∀ n ∈ nodes, ¬ Relation.TransGen (Edge nodes next) n n

/-- How much a node waits for when some nodes are out. -/
def pending (out : List ν) (n : ν) : ℕ := ∑ p ∈ nodes \ out.toFinset, (next p).count n

/-- The nodes that are out come after those before them, and the counts say what is missing. -/
structure Inv (s : Queue ν) : Prop where
  nodup : (s.out ++ s.ready).Nodup
  sub : ∀ n ∈ s.out ++ s.ready, n ∈ nodes
  waits : ∀ n ∈ nodes, s.waits n = pending nodes next s.out n
  ready : ∀ n ∈ nodes, n ∉ s.out → (n ∈ s.ready ↔ s.waits n = 0)
  done : ∀ n ∈ s.out, s.waits n = 0
  before : ∀ p n, Edge nodes next p n → n ∈ s.out → p ∈ s.out ∧ s.out.idxOf p < s.out.idxOf n

variable {nodes next} {s : Queue ν}

lemma pending_snoc {out : List ν} {n : ν} (hn : n ∈ nodes) (hout : n ∉ out) (m : ν) :
    pending nodes next out m = (next n).count m+pending nodes next (out ++ [n]) m := by
  have hsplit : nodes \ (out ++ [n]).toFinset = (nodes \ out.toFinset).erase n := by
    ext x
    simp only [Finset.mem_sdiff,List.mem_toFinset,List.mem_append,List.mem_singleton,
      Finset.mem_erase]
    tauto
  have hmem : n ∈ nodes \ out.toFinset := by
    rw [Finset.mem_sdiff,List.mem_toFinset]
    exact ⟨hn,hout⟩
  rw [pending,pending,hsplit]
  exact (Finset.add_sum_erase _ (fun p => (next p).count m) hmem).symm

lemma pending_zero {out : List ν} {n p : ν} (h : pending nodes next out n = 0)
    (hp : Edge nodes next p n) : p ∈ out := by
  by_contra hnot
  have hmem : p ∈ nodes \ out.toFinset := by
    rw [Finset.mem_sdiff,List.mem_toFinset]
    exact ⟨hp.1,hnot⟩
  have hzero := Finset.sum_eq_zero_iff.mp h p hmem
  exact List.count_eq_zero.mp hzero hp.2

section step
variable {s' : Queue ν} {n : ν} {ready : List ν}

lemma Inv.ready_new (h : Inv nodes next s) {m : ν} (hm : m ∈ s.ready) :
    m ∈ nodes ∧ m ∉ s.out ∧ s.waits m = 0 := by
  have hnodes := h.sub m (List.mem_append_right _ hm)
  have hout : m ∉ s.out := fun hin => (List.nodup_append.mp h.nodup).2.2 m hin m hm rfl
  exact ⟨hnodes,hout,(h.ready m hnodes hout).mp hm⟩

/-- What is behind a ready node waits for it. -/
lemma Inv.count_le (hclosed : ∀ n ∈ nodes, ∀ m ∈ next n, m ∈ nodes) (h : Inv nodes next s)
    (hn : n ∈ s.ready) (m : ν) :
    (next n).count m ≤ s.waits m := by
  obtain ⟨hnodes,hout,-⟩ := h.ready_new hn
  by_cases hm : m ∈ nodes
  · rw [h.waits m hm,pending_snoc hnodes hout m]
    omega
  · rw [List.count_eq_zero.mpr (fun hin => hm (hclosed n hnodes m hin))]
    exact Nat.zero_le _

lemma Inv.released (hclosed : ∀ n ∈ nodes, ∀ m ∈ next n, m ∈ nodes) (h : Inv nodes next s)
    (hready : s.ready = n :: ready) :
    Released ⟨s.out ++ [n],ready,s.waits⟩ ((sorted (next n)).foldl release ⟨s.out ++ [n],ready,
      s.waits⟩) (next n) := by
  have hnodup : s.ready.Nodup := (List.nodup_append.mp h.nodup).2.1
  rw [hready] at hnodup
  apply Released.of_perm (perm_sorted (next n))
  apply foldl_release (List.nodup_cons.mp hnodup).2
  · intro m hm
    refine (h.ready_new ?_).2.2
    rw [hready]
    exact List.mem_cons_of_mem _ hm
  · intro m
    rw [(perm_sorted (next n)).count_eq m]
    refine h.count_le hclosed ?_ m
    rw [hready]
    exact List.mem_cons_self

/-- A node that is ready afterwards is not out: it was ready before, or it waited for something. -/
lemma Inv.fresh (hclosed : ∀ n ∈ nodes, ∀ m ∈ next n, m ∈ nodes) (h : Inv nodes next s)
    (hready : s.ready = n :: ready)
    (hr : Released ⟨s.out ++ [n],ready,s.waits⟩ s' (next n)) {m : ν} (hm : m ∈ s'.ready) :
    m ∉ s.out ++ [n] := by
  have hnodup := h.nodup
  rw [hready] at hnodup
  have hn : n ∈ s.ready := by
    rw [hready]
    exact List.mem_cons_self
  intro hmout
  obtain hin | ⟨hin,-⟩ := (hr.mem m).mp hm
  · obtain hmout | hmout := List.mem_append.mp hmout
    · exact (List.nodup_append.mp hnodup).2.2 m hmout m (List.mem_cons_of_mem _ hin) rfl
    · rw [List.mem_singleton.mp hmout] at hin
      exact (List.nodup_cons.mp (List.nodup_append.mp hnodup).2.1).1 hin
  · have hcount : 0 < (next n).count m := List.count_pos_iff.mpr hin
    have hle := h.count_le hclosed hn m
    obtain hmout | hmout := List.mem_append.mp hmout
    · have := h.done m hmout
      omega
    · rw [List.mem_singleton.mp hmout,(h.ready_new hn).2.2] at hle
      rw [List.mem_singleton.mp hmout] at hcount
      omega

lemma Inv.ready_iff (h : Inv nodes next s) (hready : s.ready = n :: ready)
    (hr : Released ⟨s.out ++ [n],ready,s.waits⟩ s' (next n))
    {m : ν} (hm : m ∈ nodes) (hmout : m ∉ s.out ++ [n]) : m ∈ s'.ready ↔ s'.waits m = 0 := by
  rw [List.mem_append,not_or,List.mem_singleton] at hmout
  have hold := h.ready m hm hmout.1
  rw [hready,List.mem_cons] at hold
  refine ⟨hr.zero m,fun hz => (hr.mem m).mpr ?_⟩
  by_cases hin : m ∈ next n
  · exact Or.inr ⟨hin,hz⟩
  · rw [hr.waits m,List.count_eq_zero.mpr hin,Nat.sub_zero] at hz
    exact Or.inl ((hold.mpr hz).resolve_left hmout.2)

/-- Everything before a ready node is out, so the node may come last. -/
lemma Inv.before_snoc (h : Inv nodes next s) (hn : n ∈ s.ready) {p m : ν}
    (hedge : Edge nodes next p m) (hm : m ∈ s.out ++ [n]) :
    p ∈ s.out ++ [n] ∧ (s.out ++ [n]).idxOf p < (s.out ++ [n]).idxOf m := by
  by_cases hold : m ∈ s.out
  · obtain ⟨hp,hlt⟩ := h.before p m hedge hold
    rw [List.idxOf_append_of_mem hp,List.idxOf_append_of_mem hold]
    exact ⟨List.mem_append_left _ hp,hlt⟩
  · obtain rfl : m = n := List.mem_singleton.mp ((List.mem_append.mp hm).resolve_left hold)
    obtain ⟨hnodes,-,hzero⟩ := h.ready_new hn
    rw [h.waits m hnodes] at hzero
    have hp : p ∈ s.out := pending_zero hzero hedge
    rw [List.idxOf_append_of_mem hp,List.idxOf_append_of_notMem hold]
    refine ⟨List.mem_append_left _ hp,?_⟩
    have := List.idxOf_lt_length_of_mem hp
    omega

/-- One node put in order keeps the account. -/
lemma Inv.step (hclosed : ∀ n ∈ nodes, ∀ m ∈ next n, m ∈ nodes) (h : Inv nodes next s)
    (hready : s.ready = n :: ready) :
    Inv nodes next ((sorted (next n)).foldl release ⟨s.out ++ [n],ready,s.waits⟩) := by
  have hr := h.released hclosed hready
  generalize (sorted (next n)).foldl release ⟨s.out ++ [n],ready,s.waits⟩ = s' at hr ⊢
  have hn : n ∈ s.ready := by
    rw [hready]
    exact List.mem_cons_self
  obtain ⟨hnodes,hnout,hzero⟩ := h.ready_new hn
  have hout : s'.out = s.out ++ [n] := hr.out
  have hmem : ∀ m ∈ s'.out, m ∈ s.out ∨ m = n := by
    intro m hm
    rw [hout,List.mem_append,List.mem_singleton] at hm
    exact hm
  refine ⟨?_,?_,?_,?_,?_,?_⟩
  · rw [List.nodup_append,hout]
    refine ⟨?_,hr.nodup,fun a ha b hb hab => h.fresh hclosed hready hr hb (hab ▸ ha)⟩
    rw [← List.concat_eq_append]
    exact (List.nodup_append.mp h.nodup).1.concat hnout
  · intro m hm
    obtain hm | hm := List.mem_append.mp hm
    · obtain hm | rfl := hmem m hm
      · exact h.sub m (List.mem_append_left _ hm)
      · exact hnodes
    · obtain hin | ⟨hin,-⟩ := (hr.mem m).mp hm
      · refine h.sub m (List.mem_append_right _ ?_)
        rw [hready]
        exact List.mem_cons_of_mem _ hin
      · exact hclosed n hnodes m hin
  · intro m hm
    rw [hout,hr.waits m]
    dsimp only
    rw [h.waits m hm,pending_snoc hnodes hnout m]
    omega
  · intro m hm hmout
    rw [hout] at hmout
    exact h.ready_iff hready hr hm hmout
  · intro m hm
    rw [hr.waits m]
    obtain hm | rfl := hmem m hm
    · rw [h.done m hm,Nat.zero_sub]
    · rw [hzero,Nat.zero_sub]
  · intro p m hedge hm
    rw [hout] at hm ⊢
    exact h.before_snoc hn hedge hm

end step

lemma foldl_release_out (s : Queue ν) (l : List ν) : (l.foldl release s).out = s.out := by
  induction l generalizing s with
  | nil => rfl
  | cons n l ih => rw [List.foldl_cons,ih,release_out]

/-- The account holds at the start, when the counts are those of the whole graph. -/
lemma Inv.start {l : List ν} (hnodup : l.Nodup) (hl : ∀ n, n ∈ l ↔ n ∈ nodes) {waits : ν → ℕ}
    (hwaits : ∀ n ∈ nodes, waits n = pending nodes next [] n) :
    Inv nodes next ⟨[],sorted (l.filter (fun n => waits n = 0)),waits⟩ := by
  have hmem : ∀ n, n ∈ sorted (l.filter (fun n => waits n = 0)) ↔ n ∈ nodes ∧ waits n = 0 := by
    intro n
    rw [mem_sorted,List.mem_filter,hl n,decide_eq_true_iff]
  refine ⟨?_,?_,hwaits,?_,?_,?_⟩
  · rw [List.nil_append,(perm_sorted _).nodup_iff]
    exact hnodup.filter _
  · intro n hn
    exact ((hmem n).mp hn).1
  · intro n hn _
    rw [hmem n]
    exact ⟨fun h => h.2,fun h => ⟨hn,h⟩⟩
  · intro n hn
    cases hn
  · intro p n _ hn
    cases hn

/-- A run goes on until nothing is ready. -/
lemma Inv.order (hclosed : ∀ n ∈ nodes, ∀ m ∈ next n, m ∈ nodes) (h : Inv nodes next s) {fuel : ℕ}
    (hfuel : nodes.card ≤ s.out.length+fuel) :
    Inv nodes next (order next fuel s) ∧ (order next fuel s).ready = [] := by
  induction fuel generalizing s with
  | zero =>
    refine ⟨h,?_⟩
    have hsub : (s.out ++ s.ready).toFinset ⊆ nodes := fun n hn => h.sub n (List.mem_toFinset.mp hn)
    have hcard := Finset.card_le_card hsub
    rw [List.toFinset_card_of_nodup h.nodup,List.length_append] at hcard
    exact List.eq_nil_of_length_eq_zero (show s.ready.length = 0 by omega)
  | succ fuel ih =>
    unfold Graph.order
    split
    · rename_i hready
      exact ⟨h,hready⟩
    · rename_i n ready hready
      apply ih (h.step hclosed hready)
      rw [foldl_release_out,List.length_append,List.length_singleton]
      omega

lemma before_trans (h : Inv nodes next s) {p n : ν} (hpn : Relation.TransGen (Edge nodes next) p n)
    (hn : n ∈ s.out) :
    p ∈ s.out ∧ s.out.idxOf p < s.out.idxOf n := by
  induction hpn with
  | single hedge => exact h.before _ _ hedge hn
  | tail _ hedge ih =>
    obtain ⟨hm,hlt⟩ := h.before _ _ hedge hn
    obtain ⟨hp,hlt'⟩ := ih hm
    exact ⟨hp,hlt'.trans hlt⟩

omit [LinearOrder ν] in
/-- Among finitely many nodes without a cycle one is behind none of the others. -/
lemma exists_first {P : ν → Prop} {E : ν → ν → Prop} (hfin : ∀ n, P n → n ∈ nodes)
    (hirr : ∀ n, P n → ¬ Relation.TransGen E n n) {n : ν} (hn : P n) :
    ∃ m, P m ∧ ∀ p, P p → ¬ E p m := by
  have hset : Finite { n // P n } := (nodes.finite_toSet.subset hfin).to_subtype
  let r : { n // P n } → { n // P n } → Prop := fun a b => Relation.TransGen E a.1 b.1
  have htrans : IsTrans { n // P n } r := ⟨fun a b c hab hbc => Relation.TransGen.trans hab hbc⟩
  have hirr' : Std.Irrefl r := ⟨fun a => hirr a.1 a.2⟩
  obtain ⟨m,-,hmin⟩ := (Finite.wellFounded_of_trans_of_irrefl r).has_min Set.univ ⟨⟨n,hn⟩,trivial⟩
  exact ⟨m.1,m.2,fun p hp hedge => hmin ⟨p,hp⟩ trivial (Relation.TransGen.single hedge)⟩

/-- When nothing is ready, what is left is what a cycle leads to. -/
theorem left_iff (h : Inv nodes next s) (hready : s.ready = []) {n : ν} (hn : n ∈ nodes) :
    n ∉ s.out ↔ ∃ c ∈ nodes, Relation.TransGen (Edge nodes next) c c ∧
    Relation.ReflTransGen (Edge nodes next) c n := by
  have hcyclic : ∀ c, Relation.TransGen (Edge nodes next) c c → c ∉ s.out :=
    fun c hc hin => lt_irrefl _ (before_trans h hc hin).2
  constructor
  · intro hout
    by_contra hnone
    push Not at hnone
    obtain ⟨m,⟨hm,hmout,hmn⟩,hfirst⟩ := @exists_first ν nodes (fun m => m ∈ nodes ∧ m ∉ s.out ∧
      Relation.ReflTransGen (Edge nodes next) m n)
      (Edge nodes next) (fun m hm => hm.1) (fun m hm hc => hnone m hm.1 hc hm.2.2) n ⟨hn,hout,
        Relation.ReflTransGen.refl⟩
    have hpos : pending nodes next s.out m ≠ 0 := by
      rw [← h.waits m hm]
      intro hzero
      have hin := (h.ready m hm hmout).mpr hzero
      rw [hready] at hin
      cases hin
    obtain ⟨p,hp,hcount⟩ := Finset.exists_ne_zero_of_sum_ne_zero hpos
    rw [Finset.mem_sdiff,List.mem_toFinset] at hp
    have hedge : Edge nodes next p m := ⟨hp.1,List.count_pos_iff.mp (Nat.pos_of_ne_zero hcount)⟩
    exact hfirst p ⟨hp.1,hp.2,Relation.ReflTransGen.head hedge hmn⟩ hedge
  · rintro ⟨c,-,hc,hcn⟩ hin
    obtain heq | htrans := Relation.reflTransGen_iff_eq_or_transGen.mp hcn
    · rw [heq] at hin
      exact hcyclic c hc hin
    · exact hcyclic c hc (before_trans h htrans hin).1

/-- Every node is put in order exactly when there is no cycle. -/
theorem complete_iff (h : Inv nodes next s) (hready : s.ready = []) :
    s.out.length = nodes.card ↔ Acyclic nodes next := by
  have hnodup : s.out.Nodup := (List.nodup_append.mp h.nodup).1
  have hsub : s.out.toFinset ⊆ nodes :=
    fun n hn => h.sub n (List.mem_append_left _ (List.mem_toFinset.mp hn))
  constructor
  · intro hlen n hn hc
    have heq : s.out.toFinset = nodes := by
      apply Finset.eq_of_subset_of_card_le hsub
      rw [List.toFinset_card_of_nodup hnodup,hlen]
    have hin : n ∈ s.out := by
      rw [← heq] at hn
      exact List.mem_toFinset.mp hn
    exact (left_iff h hready hn).mpr ⟨n,hn,hc,Relation.ReflTransGen.refl⟩ hin
  · intro hacyclic
    rw [← List.toFinset_card_of_nodup hnodup]
    apply congrArg
    apply Finset.Subset.antisymm hsub
    intro n hn
    rw [List.mem_toFinset]
    by_contra hout
    obtain ⟨c,hc,hcc,-⟩ := (left_iff h hready hn).mp hout
    exact hacyclic c hc hcc

end run

/-- The order depends on what is behind a node, not on how it is listed. -/
lemma order_congr {next next' : ν → List ν} (h : ∀ n, (next n).Perm (next' n)) (fuel : ℕ)
    (s : Queue ν) : order next fuel s = order next' fuel s := by
  induction fuel generalizing s with
  | zero => rfl
  | succ fuel ih =>
    unfold order
    split
    · rfl
    · rw [sorted_congr (h _)]
      exact ih _

end Manvi.Graph
