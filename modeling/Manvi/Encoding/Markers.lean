import Mathlib

/-! Finding markers in a sequence that arrives in pieces: the first marker of what has arrived stays
the first when more arrives, and only a suffix that may begin a marker has to be held back. -/
namespace Manvi.Encoding
variable {α : Type} [DecidableEq α]

/-- The position of the first occurrence of a tag. -/
def index : List α → List α → Option ℕ
  | [],tag => if tag.isPrefixOf [] then some 0 else none
  | x :: xs,tag => if tag.isPrefixOf (x :: xs) then some 0 else (index xs tag).map (·+1)

/-- The position and the length of the earliest occurrence of any tag. -/
def findFirst (data : List α) (tags : List (List α)) : Option (ℕ × ℕ) :=
  tags.foldl (fun found tag => match index data tag with
    | none => found
    | some i => if found.all (fun best => i < best.1) then some (i,tag.length) else found) none

/-- How many trailing elements could be the start of a tag. -/
def partialSuffix (data : List α) (tags : List (List α)) : ℕ :=
  tags.foldl (fun longest tag => ((List.range' 1 (tag.length-1)).reverse).foldl (fun longest l =>
    if (tag.take l).isSuffixOf data ∧ longest < l then l else longest) longest) 0

/-- Markers that hold their lead only at the start, none of them the beginning of another. -/
structure Markers (lead : α) (tags : List (List α)) : Prop where
  lead : ∀ t ∈ tags, ∃ body, t = lead :: body ∧ lead ∉ body
  free : ∀ t ∈ tags, ∀ u ∈ tags, t <+: u → t = u

/-- The first marker, with what stands before and after it. -/
def firstMarker (tags : List (List α)) : List α → Option (List α × List α × List α)
  | [] => none
  | x :: xs => match tags.find? (fun t => t.isPrefixOf (x :: xs)) with
    | some t => some ([],t,(x :: xs).drop t.length)
    | none => (firstMarker tags xs).map (fun m => (x :: m.1,m.2.1,m.2.2))

/-- The longest suffix that begins a marker and does not complete it. -/
def held (tags : List (List α)) : List α → List α
  | [] => []
  | x :: xs => if tags.any (fun t => (x :: xs).isPrefixOf t ∧ x :: xs ≠ t) then
    x :: xs else held tags xs

section first
variable {tags : List (List α)} {data p t r : List α}

lemma prefix_of_find? (h : tags.find? (fun t => t.isPrefixOf data) = some t) : t <+: data := by
  have hp : t.isPrefixOf data = true := List.find?_some (p := fun t : List α => t.isPrefixOf data) h
  exact List.isPrefixOf_iff_prefix.mp hp

lemma firstMarker_some (h : firstMarker tags data = some (p,t,r)) :
    data = p ++ t ++ r ∧ t ∈ tags := by
  induction data generalizing p with
  | nil => cases h
  | cons x xs ih =>
    unfold firstMarker at h
    cases hf : tags.find? (fun t => t.isPrefixOf (x :: xs)) with
    | some u =>
      rw [hf] at h
      cases h
      obtain ⟨rest,hrest⟩ := prefix_of_find? hf
      refine ⟨?_,List.mem_of_find?_eq_some hf⟩
      rw [← hrest]
      simp
    | none =>
      rw [hf] at h
      obtain ⟨m,hm,he⟩ := Option.map_eq_some_iff.mp h
      cases he
      obtain ⟨hd,ht⟩ := ih hm
      exact ⟨by rw [hd]; simp,ht⟩

lemma not_prefix_of_find?_none {x : α} {xs : List α}
    (h : tags.find? (fun t => t.isPrefixOf (x :: xs)) = none) {t : List α} (ht : t ∈ tags) :
    ¬ t <+: x :: xs := by
  intro hp
  have := List.find?_eq_none.mp h t ht
  exact this (List.isPrefixOf_iff_prefix.mpr hp)

lemma find?_of_begins {lead : α} (hm : Markers lead tags) {t : List α} (ht : t ∈ tags) {x : α}
    {xs : List α} (hp : t <+: x :: xs) : tags.find? (fun t => t.isPrefixOf (x :: xs)) = some t := by
  cases hf : tags.find? (fun t => t.isPrefixOf (x :: xs)) with
  | none => exact absurd hp (not_prefix_of_find?_none hf ht)
  | some u =>
    have hu := List.mem_of_find?_eq_some hf
    have hup := prefix_of_find? hf
    rcases List.prefix_or_prefix_of_prefix hp hup with h | h
    · rw [hm.free t ht u hu h]
    · rw [hm.free u hu t ht h]

omit [DecidableEq α] in
/-- The lead of a marker does not stand inside another. -/
lemma Markers.not_inside {lead : α} (hm : Markers lead tags) (ht : t ∈ tags) {u : List α}
    (hu : u ∈ tags)
    {x : α} {xs b : List α} (h : t <+: x :: xs ++ b) (hlong : ¬ t <+: x :: xs)
    (hin : xs = p ++ u ++ r) : False := by
  obtain ⟨body,rfl,hbody⟩ := hm.lead t ht
  obtain ⟨ubody,rfl,_⟩ := hm.lead u hu
  have hlen : (x :: xs).length ≤ (lead :: body).length := by
    by_contra hlt
    exact hlong ((List.prefix_of_prefix_length_le h (List.prefix_append _ _) (by omega)))
  have hpre : x :: xs <+: lead :: body :=
    List.prefix_of_prefix_length_le (List.prefix_append _ _) h hlen
  have hxs : xs <+: body := (List.cons_prefix_cons.mp hpre).2
  apply hbody
  apply hxs.subset
  rw [hin]
  simp

/-- The first marker stays the first when more arrives. -/
lemma firstMarker_append {lead : α} (hm : Markers lead tags)
    (h : firstMarker tags data = some (p,t,r))
    (b : List α) : firstMarker tags (data ++ b) = some (p,t,r ++ b) := by
  induction data generalizing p with
  | nil => cases h
  | cons x xs ih =>
    unfold firstMarker at h
    rw [List.cons_append]
    unfold firstMarker
    cases hf : tags.find? (fun t => t.isPrefixOf (x :: xs)) with
    | some u =>
      rw [hf] at h
      cases h
      have hu := List.mem_of_find?_eq_some hf
      have hup := prefix_of_find? hf
      have hup' : t <+: x :: (xs ++ b) := hup.trans (List.prefix_append (x :: xs) b)
      rw [find?_of_begins hm hu hup']
      have hle : t.length ≤ (x :: xs).length := hup.length_le
      have hdrop : (x :: xs ++ b).drop t.length = (x :: xs).drop t.length ++ b :=
        List.drop_append_of_le_length hle
      rw [← hdrop]
      rfl
    | none =>
      rw [hf] at h
      obtain ⟨m,hfirst,he⟩ := Option.map_eq_some_iff.mp h
      cases he
      have hnone : tags.find? (fun t => t.isPrefixOf (x :: (xs ++ b))) = none := by
        apply List.find?_eq_none.mpr
        intro u hu hpre
        obtain ⟨hin,ht⟩ := firstMarker_some hfirst
        exact hm.not_inside hu ht (List.isPrefixOf_iff_prefix.mp hpre)
          (not_prefix_of_find?_none hf hu) hin
      rw [hnone]
      change (firstMarker tags (xs ++ b)).map _ = _
      rw [ih hfirst]
      rfl

lemma firstMarker_none_cons {x : α} {xs : List α} (h : firstMarker tags (x :: xs) = none) :
    tags.find? (fun t => t.isPrefixOf (x :: xs)) = none ∧ firstMarker tags xs = none := by
  unfold firstMarker at h
  cases hf : tags.find? (fun t => t.isPrefixOf (x :: xs)) with
  | some u =>
    rw [hf] at h
    cases h
  | none =>
    rw [hf] at h
    exact ⟨rfl,Option.map_eq_none_iff.mp h⟩

lemma firstMarker_of_find?_none {x : α} {xs : List α}
    (h : tags.find? (fun t => t.isPrefixOf (x :: xs)) = none) :
    firstMarker tags (x :: xs) = (firstMarker tags xs).map (fun m => (x :: m.1,m.2.1,m.2.2)) := by
  rw [firstMarker,h]

/-- The start of a marker that what has arrived may be. -/
lemma begins_iff {x : α} {xs : List α} :
    tags.any (fun t => (x :: xs).isPrefixOf t ∧ x :: xs ≠ t) = true ↔
      ∃ t ∈ tags, x :: xs <+: t ∧ x :: xs ≠ t := by
  simp only [List.any_eq_true,decide_eq_true_eq,List.isPrefixOf_iff_prefix]

/-- What is held and what arrives later hold no other marker than the whole. -/
lemma firstMarker_held (h : firstMarker tags data = none) (b : List α) :
    ∃ safe, data = safe ++ held tags data ∧ firstMarker tags (data ++ b) =
      (firstMarker tags (held tags data ++ b)).map (fun m => (safe ++ m.1,m.2.1,m.2.2)) := by
  induction data with
  | nil => exact ⟨[],rfl,by simp [held]⟩
  | cons x xs ih =>
    obtain ⟨hnone,hrest⟩ := firstMarker_none_cons h
    unfold held
    split_ifs with hb
    · exact ⟨[],rfl,by simp⟩
    · obtain ⟨safe,hsafe,hmap⟩ := ih hrest
      refine ⟨x :: safe,by rw [List.cons_append,← hsafe],?_⟩
      have hnone' : tags.find? (fun t => t.isPrefixOf (x :: (xs ++ b))) = none := by
        apply List.find?_eq_none.mpr
        intro t ht hp
        have hp := List.isPrefixOf_iff_prefix.mp hp
        rcases List.prefix_or_prefix_of_prefix hp (List.prefix_append (x :: xs) b) with hle | hle
        · exact not_prefix_of_find?_none hnone ht hle
        · by_cases he : x :: xs = t
          · exact not_prefix_of_find?_none hnone ht (by rw [he])
          · exact hb (begins_iff.mpr ⟨t,ht,hle,he⟩)
      rw [List.cons_append,firstMarker_of_find?_none hnone',hmap,Option.map_map]
      rfl

lemma held_append (tags : List (List α)) (data b : List α) :
    held tags (data ++ b) = held tags (held tags data ++ b) := by
  induction data with
  | nil => rfl
  | cons x xs ih =>
    by_cases hb : tags.any (fun t => (x :: xs).isPrefixOf t ∧ x :: xs ≠ t) = true
    · rw [show held tags (x :: xs) = x :: xs by rw [held,if_pos hb]]
    · have hlong : ¬ tags.any (fun t => (x :: (xs ++ b)).isPrefixOf t ∧
        x :: (xs ++ b) ≠ t) = true := by
        intro hlong
        obtain ⟨t,ht,hp,hne⟩ := begins_iff.mp hlong
        apply hb
        refine begins_iff.mpr ⟨t,ht,(List.prefix_append (x :: xs) b).trans hp,?_⟩
        intro he
        have hlen := hp.length_le
        rw [← he] at hlen
        simp only [List.length_cons,List.length_append] at hlen
        have hnil : b = [] := List.length_eq_zero_iff.mp (by omega)
        rw [hnil,List.append_nil] at hne
        exact hne he
      rw [List.cons_append,held,if_neg hlong,ih]
      rw [show held tags (x :: xs) = held tags xs by rw [held,if_neg hb]]

end first

/-! The searches, in these terms. -/

section searches
variable {tags : List (List α)} {data p t r : List α}

lemma index_cons_of_begins {x : α} {xs : List α} (h : t <+: x :: xs) :
    index (x :: xs) t = some 0 := by
  rw [index,if_pos (List.isPrefixOf_iff_prefix.mpr h)]

lemma index_cons_of_not_begins {x : α} {xs : List α} (h : ¬ t <+: x :: xs) :
    index (x :: xs) t = (index xs t).map (·+1) := by
  rw [index,if_neg (fun hp => h (List.isPrefixOf_iff_prefix.mp hp))]

/-- Without a first marker no tag occurs. -/
lemma index_of_firstMarker_none {lead : α} (hm : Markers lead tags)
    (h : firstMarker tags data = none) (ht : t ∈ tags) : index data t = none := by
  induction data with
  | nil =>
    obtain ⟨body,rfl,_⟩ := hm.lead t ht
    rfl
  | cons x xs ih =>
    obtain ⟨hnone,hrest⟩ := firstMarker_none_cons h
    rw [index_cons_of_not_begins (not_prefix_of_find?_none hnone ht),ih hrest]
    rfl

/-- The first marker occurs where it stands, and every other tag later if at all. -/
lemma index_of_firstMarker {lead : α} (hm : Markers lead tags)
    (h : firstMarker tags data = some (p,t,r))
    {u : List α} (hu : u ∈ tags) :
    if u = t then index data u = some p.length else ∀ i, index data u = some i → p.length < i := by
  induction data generalizing p with
  | nil => cases h
  | cons x xs ih =>
    cases hf : tags.find? (fun t => t.isPrefixOf (x :: xs)) with
    | some v =>
      rw [firstMarker,hf] at h
      cases h
      have hp := prefix_of_find? hf
      split_ifs with he
      · rw [he]
        exact index_cons_of_begins hp
      · have hno : ¬ u <+: x :: xs := by
          intro hup
          rw [find?_of_begins hm hu hup] at hf
          exact he (Option.some.inj hf)
        rw [index_cons_of_not_begins hno]
        intro i hi
        obtain ⟨j,_,rfl⟩ := Option.map_eq_some_iff.mp hi
        exact Nat.succ_pos j
    | none =>
      rw [firstMarker_of_find?_none hf] at h
      obtain ⟨m,hfirst,he⟩ := Option.map_eq_some_iff.mp h
      cases he
      have hrest := ih hfirst
      rw [index_cons_of_not_begins (not_prefix_of_find?_none hf hu)]
      split_ifs at hrest ⊢ with he
      · rw [hrest]
        rfl
      · intro i hi
        obtain ⟨j,hj,rfl⟩ := Option.map_eq_some_iff.mp hi
        have := hrest j hj
        simp only [List.length_cons]
        omega

/-- What the search over some tags finds: the earliest of their occurrences. -/
lemma findFirst_spec (data : List α) (ts : List (List α)) :
    (findFirst data ts = none → ∀ u ∈ ts, index data u = none) ∧
    ∀ i l, findFirst data ts = some (i,l) → (∃ u ∈ ts, index data u = some i ∧ l = u.length) ∧
      ∀ u ∈ ts, ∀ j, index data u = some j → i ≤ j := by
  induction ts using List.reverseRecOn with
  | nil => exact ⟨by simp,by simp [findFirst]⟩
  | append_singleton ts t ih =>
    have hstep : findFirst data (ts ++ [t]) = match index data t with
        | none => findFirst data ts
        | some i => if (findFirst data ts).all (fun best => i < best.1) then some (i,t.length)
          else findFirst data ts := by
      rw [findFirst,List.foldl_append]
      rfl
    rw [hstep]
    cases ht : index data t with
    | none =>
      dsimp only
      refine ⟨?_,?_⟩
      · intro hn u hu
        rcases List.mem_append.mp hu with hu | hu
        · exact ih.1 hn u hu
        · rw [List.mem_singleton.mp hu]
          exact ht
      · intro i l hf
        obtain ⟨⟨u,hu,hi,hl⟩,hmin⟩ := ih.2 i l hf
        refine ⟨⟨u,List.mem_append_left _ hu,hi,hl⟩,?_⟩
        intro v hv j hj
        rcases List.mem_append.mp hv with hv | hv
        · exact hmin v hv j hj
        · rw [List.mem_singleton.mp hv,ht] at hj
          cases hj
    | some k =>
      dsimp only
      by_cases hall : (findFirst data ts).all (fun best => k < best.1) = true
      · rw [if_pos hall]
        refine ⟨by simp,?_⟩
        intro i l hf
        cases hf
        refine ⟨⟨t,List.mem_append_right _ (List.mem_singleton_self t),ht,rfl⟩,?_⟩
        intro v hv j hj
        rcases List.mem_append.mp hv with hv | hv
        · cases hf : findFirst data ts with
          | none =>
            rw [ih.1 hf v hv] at hj
            cases hj
          | some best =>
            rw [hf,Option.all_some,decide_eq_true_eq] at hall
            have hle := (ih.2 best.1 best.2 hf).2 v hv j hj
            omega
        · rw [List.mem_singleton.mp hv,ht] at hj
          exact (Option.some.inj hj).le
      · rw [if_neg hall]
        cases hf : findFirst data ts with
        | none =>
          rw [hf] at hall
          exact absurd rfl hall
        | some best =>
          refine ⟨by simp,?_⟩
          intro i l he
          cases he
          rw [hf,Option.all_some,decide_eq_true_eq] at hall
          obtain ⟨⟨u,hu,hi,hl⟩,hmin⟩ := ih.2 i l hf
          refine ⟨⟨u,List.mem_append_left _ hu,hi,hl⟩,?_⟩
          intro v hv j hj
          rcases List.mem_append.mp hv with hv | hv
          · exact hmin v hv j hj
          · rw [List.mem_singleton.mp hv,ht] at hj
            cases hj
            omega

lemma findFirst_of_firstMarker_none {lead : α} (hm : Markers lead tags)
    (h : firstMarker tags data = none) {ts : List (List α)} (hts : ∀ u ∈ ts, u ∈ tags) :
    findFirst data ts = none := by
  cases hf : findFirst data ts with
  | none => rfl
  | some best =>
    obtain ⟨⟨u,hu,hi,_⟩,_⟩ := (findFirst_spec data ts).2 best.1 best.2 hf
    rw [index_of_firstMarker_none hm h (hts u hu)] at hi
    cases hi

/-- A search over some of the tags finds the first marker when it is among them, and otherwise a
later one if any. -/
lemma findFirst_of_firstMarker {lead : α} (hm : Markers lead tags)
    (h : firstMarker tags data = some (p,t,r)) {ts : List (List α)} (hts : ∀ u ∈ ts, u ∈ tags) :
    if t ∈ ts then findFirst data ts = some (p.length,t.length)
    else ∀ i l, findFirst data ts = some (i,l) → p.length < i := by
  have hspec := findFirst_spec data ts
  have hwhere : ∀ u ∈ ts, _ := fun u hu => index_of_firstMarker hm h (hts u hu)
  split_ifs with ht
  · have hfirst := hwhere t ht
    rw [if_pos rfl] at hfirst
    cases hf : findFirst data ts with
    | none =>
      rw [hspec.1 hf t ht] at hfirst
      cases hfirst
    | some best =>
      obtain ⟨i,l⟩ := best
      obtain ⟨⟨u,hu,hi,rfl⟩,hmin⟩ := hspec.2 i l hf
      have hle := hmin t ht p.length hfirst
      have hplace := hwhere u hu
      split_ifs at hplace with he
      · rw [hplace] at hi
        rw [Option.some.inj hi,he]
      · have := hplace i hi
        omega
  · intro i l hf
    obtain ⟨⟨u,hu,hi,_⟩,_⟩ := hspec.2 i l hf
    have hplace := hwhere u hu
    rw [if_neg (fun he => ht (by rw [← he]; exact hu))] at hplace
    exact hplace i hi

/-- A length at which what has arrived ends in the start of a tag. -/
def Begun (tags : List (List α)) (data : List α) (l : ℕ) : Prop :=
  ∃ t ∈ tags, 1 ≤ l ∧ l < t.length ∧ t.take l <:+ data

lemma partialSuffix_tag (data tag : List α) (longest : ℕ) (ls : List ℕ) :
    let best := ls.foldl (fun longest l =>
      if (tag.take l).isSuffixOf data ∧ longest < l then l else longest) longest
    longest ≤ best ∧ (best = longest ∨ best ∈ ls ∧ tag.take best <:+ data) ∧
      ∀ l ∈ ls, tag.take l <:+ data → l ≤ best := by
  induction ls using List.reverseRecOn with
  | nil => exact ⟨le_refl _,.inl rfl,by simp⟩
  | append_singleton ls l ih =>
    rw [List.foldl_append]
    simp only [List.foldl_cons,List.foldl_nil]
    obtain ⟨hle,hone,hmax⟩ := ih
    split_ifs with hc
    · refine ⟨hle.trans hc.2.le,.inr ⟨by simp,List.isSuffixOf_iff_suffix.mp hc.1⟩,?_⟩
      intro l' hl' hs
      rcases List.mem_append.mp hl' with hl' | hl'
      · exact (hmax l' hl' hs).trans hc.2.le
      · exact (List.mem_singleton.mp hl').le
    · refine ⟨hle,?_,?_⟩
      · rcases hone with hone | ⟨hin,hs⟩
        · exact .inl hone
        · exact .inr ⟨List.mem_append_left _ hin,hs⟩
      · intro l' hl' hs
        rcases List.mem_append.mp hl' with hl' | hl'
        · exact hmax l' hl' hs
        · rw [List.mem_singleton.mp hl'] at hs ⊢
          by_contra hlt
          exact hc ⟨List.isSuffixOf_iff_suffix.mpr hs,by omega⟩

lemma partialSuffix_spec (data : List α) (tags : List (List α)) :
    (partialSuffix data tags = 0 ∨ Begun tags data (partialSuffix data tags)) ∧
      ∀ l, Begun tags data l → l ≤ partialSuffix data tags := by
  induction tags using List.reverseRecOn with
  | nil => exact ⟨.inl rfl,by simp [Begun]⟩
  | append_singleton tags t ih =>
    rw [show partialSuffix data (tags ++ [t]) = ((List.range' 1 (t.length-1)).reverse).foldl
        (fun longest l => if (t.take l).isSuffixOf data ∧ longest < l then l else longest)
        (partialSuffix data tags) by rw [partialSuffix,List.foldl_append]; rfl]
    obtain ⟨hle,hone,hmax⟩ := partialSuffix_tag data t (partialSuffix data tags)
      ((List.range' 1 (t.length-1)).reverse)
    refine ⟨?_,?_⟩
    · rcases hone with hone | ⟨hin,hs⟩
      · rw [hone]
        rcases ih.1 with hz | ⟨u,hu,hb⟩
        · exact .inl hz
        · exact .inr ⟨u,List.mem_append_left _ hu,hb⟩
      · rw [List.mem_reverse,List.mem_range'_1] at hin
        exact .inr ⟨t,by simp,by omega,by omega,hs⟩
    · rintro l ⟨u,hu,h1,hl,hs⟩
      rcases List.mem_append.mp hu with hu | hu
      · exact (ih.2 l ⟨u,hu,h1,hl,hs⟩).trans hle
      · rw [List.mem_singleton.mp hu] at hl hs
        apply hmax l ?_ hs
        rw [List.mem_reverse,List.mem_range'_1]
        omega

lemma held_begun (data : List α) :
    held tags data = [] ∨ Begun tags data (held tags data).length := by
  induction data with
  | nil => exact .inl rfl
  | cons x xs ih =>
    unfold held
    split_ifs with hb
    · obtain ⟨t,ht,hp,hne⟩ := begins_iff.mp hb
      have hlt : (x :: xs).length < t.length :=
        lt_of_le_of_ne hp.length_le (fun he => hne (hp.eq_of_length he))
      refine .inr ⟨t,ht,by simp,hlt,?_⟩
      rw [← List.prefix_iff_eq_take.mp hp]
    · rcases ih with ih | ⟨t,ht,h1,hl,hs⟩
      · exact .inl ih
      · exact .inr ⟨t,ht,h1,hl,hs.trans (List.suffix_cons x xs)⟩

lemma le_held {l : ℕ} (h : Begun tags data l) : l ≤ (held tags data).length := by
  obtain ⟨t,ht,h1,hl,hs⟩ := h
  have hlen : (t.take l).length = l := by
    rw [List.length_take]
    omega
  induction data with
  | nil =>
    have := hs.length_le
    simp only [List.length_nil] at this
    omega
  | cons x xs ih =>
    have hle := hs.length_le
    unfold held
    split_ifs with hb
    · omega
    · rcases List.suffix_cons_iff.mp hs with he | hs
      · exfalso
        apply hb
        refine begins_iff.mpr ⟨t,ht,?_,?_⟩
        · rw [← he]
          exact List.take_prefix l t
        · intro hwhole
          rw [← he] at hwhole
          rw [hwhole] at hlen
          omega
      · exact ih hs

lemma partialSuffix_eq (data : List α) (tags : List (List α)) :
    partialSuffix data tags = (held tags data).length := by
  have hspec := partialSuffix_spec data tags
  apply le_antisymm
  · rcases hspec.1 with hz | hb
    · rw [hz]
      exact Nat.zero_le _
    · exact le_held hb
  · rcases @held_begun _ _ tags data with hn | hb
    · rw [hn]
      exact Nat.zero_le _
    · exact hspec.2 _ hb

end searches

end Manvi.Encoding
