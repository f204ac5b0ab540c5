import Manvi.Encoding.Table
import Manvi.Encoding.Utf8

/-! Scrubbing the key names of a record's objects: every entry whose name changes moves to its new
name, or to that name with a number. -/
namespace Manvi.Session.Keys
open Manvi.Encoding

/-- A name with a number behind it. -/
def suffixed (name : List UInt8) (n : ℕ) : List UInt8 := name ++ 35 :: utf8Bytes n.repr.toList

section rename
variable {ν : Type} (scrub : List UInt8 → List UInt8) (keep : List UInt8 → Bool)

/-- A key whose entry moves. -/
def moves (key : List UInt8) : Bool := !keep key && scrub key ≠ key

/-- The first number from n on whose name is free, among so many. -/
def freeFrom (m : Table (List UInt8) ν) (name : List UInt8) : ℕ → ℕ → ℕ
  | 0,n => n
  | fuel+1,n => if (m.get (suffixed name n)).isSome then freeFrom m name fuel (n+1) else n

/-- The object and, for each name, the number to try next. -/
structure Renaming (ν : Type) where
  obj : Table (List UInt8) ν
  next : Table (List UInt8) ℕ

/-- One entry arrives at its new name. -/
def arrive (r : Renaming ν) (e : List UInt8 × ν) : Renaming ν :=
  let name := scrub e.1
  if (r.obj.get name).isSome then
    let n := freeFrom r.obj name r.obj.size (max ((r.next.get name).getD 0) 2)
    ⟨r.obj.set (suffixed name n) e.2,r.next.set name (n+1)⟩
  else ⟨r.obj.set name e.2,r.next⟩

/-- The entries that move, in the order of their keys. -/
def moved (m : Table (List UInt8) ν) : List (List UInt8 × ν) :=
  (m.entries.filter (fun e => moves scrub keep e.1)).mergeSort (fun a b => decide (a.1 ≤ b.1))

def stayed (m : Table (List UInt8) ν) : Table (List UInt8) ν :=
  m.filter (fun e => !moves scrub keep e.1)

/-- Rename the keys of an object: every entry whose name changes leaves before any arrives. -/
def renameKeys (m : Table (List UInt8) ν) : Table (List UInt8) ν :=
  if moved scrub keep m = [] then
    m else ((moved scrub keep m).foldl (arrive scrub) ⟨stayed scrub keep m,.empty⟩).obj

end rename

section free
variable {ν : Type} {m : Table (List UInt8) ν} {name : List UInt8}

lemma suffixed_inj {i j : ℕ} (h : suffixed name i = suffixed name j) : i = j := by
  have htail := (List.cons.inj (List.append_cancel_left h)).2
  have hchars := congrArg runes htail
  rw [runes_utf8Bytes,runes_utf8Bytes] at hchars
  exact Nat.repr_injective (String.toList_injective hchars)

lemma freeFrom_spec (fuel n : ℕ) : n ≤ freeFrom m name fuel n
    ∧ (∀ i, n ≤ i → i < freeFrom m name fuel n → (m.get (suffixed name i)).isSome)
    ∧ (freeFrom m name fuel n < n+fuel →
      (m.get (suffixed name (freeFrom m name fuel n))).isSome = false)
    ∧ freeFrom m name fuel n ≤ n+fuel := by
  induction fuel generalizing n with
  | zero =>
    refine ⟨le_rfl,fun i hge hlt => ?_,fun hlt => ?_,le_rfl⟩
    · rw [freeFrom] at hlt
      omega
    · rw [freeFrom] at hlt
      omega
  | succ fuel ih =>
    unfold freeFrom
    by_cases htaken : (m.get (suffixed name n)).isSome
    · rw [if_pos htaken]
      obtain ⟨hge,hall,hfree,hle⟩ := ih (n+1)
      refine ⟨by omega,fun i hi hlt => ?_,fun hlt => hfree (by omega),by omega⟩
      by_cases heq : i = n
      · rw [heq]
        exact htaken
      · exact hall i (by omega) hlt
    · rw [if_neg htaken]
      exact ⟨le_rfl,fun i hge hlt => by omega,fun _ => Bool.not_eq_true _ |>.mp htaken,by omega⟩

/-- More numbers are tried than there are keys, so one of them is free. -/
lemma freeFrom_free (n : ℕ) : suffixed name (freeFrom m name m.size n) ∉ m.keys := by
  obtain ⟨hge,hall,hfree,hle⟩ := @freeFrom_spec _ m name m.size n
  intro hmem
  have htaken := (Table.isSome_get m _).mpr hmem
  have hlast : freeFrom m name m.size n = n+m.size := by
    by_contra hne
    rw [hfree (by omega)] at htaken
    cases htaken
  have hnodup : ((List.range (m.size+1)).map (fun i => suffixed name (n+i))).Nodup := by
    refine List.Nodup.map_on (fun i _ j _ h => ?_) List.nodup_range
    have := suffixed_inj h
    omega
  have hsub : (List.range (m.size+1)).map (fun i => suffixed name (n+i)) ⊆ m.keys := by
    intro key hkey
    obtain ⟨i,hi,rfl⟩ := List.mem_map.mp hkey
    rw [List.mem_range] at hi
    by_cases heq : i = m.size
    · rw [heq,← hlast]
      exact hmem
    · exact (Table.isSome_get m _).mp (hall (n+i) (by omega) (by omega))
  have hlen := (List.subperm_of_subset hnodup hsub).length_le
  rw [List.length_map,List.length_range,Table.keys,List.length_map] at hlen
  exact absurd hlen (by rw [Table.size]; omega)

end free

section arrivals
variable {ν : Type} {scrub : List UInt8 → List UInt8} {keep : List UInt8 → Bool}

/-- The scrubbed name, or that name with a number. -/
def NamedFor (scrub : List UInt8 → List UInt8) (key new : List UInt8) : Prop :=
  new = scrub key ∨ ∃ n, 2 ≤ n ∧ new = suffixed (scrub key) n

lemma set_absent {m : Table (List UInt8) ν} {key : List UInt8} (h : key ∉ m.keys) (v : ν) :
    (m.set key v).entries = (key,v) :: m.entries := by
  change _ :: (m.erase key).entries = _
  rw [Table.erase_of_none ((Table.get_eq_none_iff m key).mpr h)]

/-- An entry arrives at a name that is free. -/
lemma arrive_spec (r : Renaming ν) (e : List UInt8 × ν) : ∃ new, NamedFor scrub e.1 new
    ∧ (arrive scrub r e).obj.entries = (new,e.2) :: r.obj.entries := by
  unfold arrive
  dsimp only
  by_cases htaken : (r.obj.get (scrub e.1)).isSome
  · rw [if_pos htaken]
    have hfree := @freeFrom_free _ r.obj (scrub e.1) (max ((r.next.get (scrub e.1)).getD 0) 2)
    have hge := (@freeFrom_spec _ r.obj (scrub e.1) r.obj.size
      (max ((r.next.get (scrub e.1)).getD 0) 2)).1
    exact ⟨_,Or.inr ⟨_,le_trans (le_max_right _ _) hge,rfl⟩,set_absent hfree _⟩
  · rw [if_neg htaken]
    have hfree : scrub e.1 ∉ r.obj.keys := fun hmem => htaken ((Table.isSome_get _ _).mpr hmem)
    exact ⟨_,Or.inl rfl,set_absent hfree _⟩

/-- The entries that arrived, each with its old and its new key. -/
lemma arrivals_spec (es : List (List UInt8 × ν)) (r : Renaming ν) :
    ∃ placed : List (List UInt8 × List UInt8 × ν), placed.map (fun p => (p.1,p.2.2)) = es.reverse
      ∧ (es.foldl (arrive scrub) r).obj.entries = placed.map Prod.snd ++ r.obj.entries
      ∧ ∀ p ∈ placed, NamedFor scrub p.1 p.2.1 := by
  induction es generalizing r with
  | nil => exact ⟨[],rfl,rfl,fun p hp => (by cases hp)⟩
  | cons e es ih =>
    obtain ⟨new,hnamed,hentries⟩ := @arrive_spec _ scrub r e
    obtain ⟨placed,hold,hall,hnames⟩ := ih (arrive scrub r e)
    refine ⟨placed ++ [(e.1,new,e.2)],?_,?_,?_⟩
    · rw [List.map_append,hold,List.reverse_cons]
      rfl
    · rw [List.foldl_cons,hall,hentries,List.map_append]
      simp
    · intro p hp
      obtain hp | hp := List.mem_append.mp hp
      · exact hnames p hp
      · rw [List.mem_singleton.mp hp]
        exact hnamed

/-- What becomes of an object: what stays keeps its key, and what moves has a new one. -/
lemma renameKeys_spec (m : Table (List UInt8) ν) : ∃ placed : List (List UInt8 × List UInt8 × ν),
    (placed.map (fun p => (p.1,p.2.2))).Perm (m.entries.filter (fun e => moves scrub keep e.1))
      ∧ (renameKeys scrub keep m).entries.Perm
        (placed.map Prod.snd ++ m.entries.filter (fun e => !moves scrub keep e.1))
      ∧ ∀ p ∈ placed, NamedFor scrub p.1 p.2.1 := by
  have hsort := List.mergeSort_perm (m.entries.filter (fun e => moves scrub keep e.1)) (fun a b =>
    decide (a.1 ≤ b.1))
  unfold renameKeys
  by_cases hnone : moved scrub keep m = []
  · rw [if_pos hnone]
    have hempty : m.entries.filter (fun e => moves scrub keep e.1) = [] :=
      List.perm_nil.mp (hnone ▸ hsort.symm)
    refine ⟨[],?_,?_,fun p hp => (by cases hp)⟩
    · rw [hempty]
      exact List.Perm.refl _
    · rw [List.map_nil,List.nil_append,List.filter_eq_self.mpr (fun e he => ?_)]
      have := List.filter_eq_nil_iff.mp hempty e he
      simpa using this
  · rw [if_neg hnone]
    obtain ⟨placed,hold,hall,hnames⟩ :=
      @arrivals_spec _ scrub (moved scrub keep m) ⟨stayed scrub keep m,.empty⟩
    refine ⟨placed,?_,?_,hnames⟩
    · rw [hold]
      exact (List.reverse_perm _).trans hsort
    · rw [hall]
      exact List.Perm.refl _

end arrivals

section kept
variable {ν : Type} {scrub : List UInt8 → List UInt8} {keep : List UInt8 → Bool}
    {m : Table (List UInt8) ν} {placed : List (List UInt8 × List UInt8 × ν)}

lemma moves_iff {key : List UInt8} :
    moves scrub keep key = true ↔ keep key = false ∧ scrub key ≠ key := by
  simp [moves]

lemma not_moves {key : List UInt8} (hstay : keep key = true ∨ scrub key = key) :
    moves scrub keep key = false := by
  rw [Bool.eq_false_iff,Ne,moves_iff]
  rintro ⟨hkeep,hne⟩
  obtain h | h := hstay
  · rw [h] at hkeep
    cases hkeep
  · exact hne h

/-- Where an entry was placed. -/
def placeIn (placed : List (List UInt8 × List UInt8 × ν)) (key : List UInt8) : List UInt8 :=
  ((placed.find? (fun p => p.1 = key)).map (·.2.1)).getD []

lemma placed_of_moved (hold : (placed.map (fun p => (p.1,p.2.2))).Perm
    (m.entries.filter (fun e => moves scrub keep e.1)))
    {key : List UInt8} {v : ν} (hget : m.get key = some v) (hmoves : moves scrub keep key = true) :
    (key,placeIn placed key,v) ∈ placed := by
  have hentry : (key,v) ∈ placed.map (fun p => (p.1,p.2.2)) :=
    hold.mem_iff.mpr (List.mem_filter.mpr ⟨Table.mem_of_get hget,hmoves⟩)
  obtain ⟨p,hp,hpe⟩ := List.mem_map.mp hentry
  have hfound : (placed.find? (fun p => p.1 = key)).isSome := by
    rw [List.find?_isSome]
    exact ⟨p,hp,by simp [(Prod.mk.inj hpe).1]⟩
  obtain ⟨q,hq⟩ := Option.isSome_iff_exists.mp hfound
  have hqmem := List.mem_of_find?_eq_some hq
  have hqkey : q.1 = key := by simpa using List.find?_some hq
  have hqold : (q.1,q.2.2) ∈ m.entries.filter (fun e => moves scrub keep e.1) :=
    hold.mem_iff.mp (List.mem_map_of_mem hqmem)
  have hqv := Table.get_of_mem (List.mem_filter.mp hqold).1
  rw [hqkey,hget] at hqv
  rw [placeIn,hq,Option.map_some,Option.getD_some,Option.some.inj hqv,← hqkey]
  exact hqmem

lemma nodup_placed (hnew : (renameKeys scrub keep m).entries.Perm
      (placed.map Prod.snd ++ m.entries.filter (fun e => !moves scrub keep e.1))) :
    (placed.map (fun p => p.2.1)).Nodup ∧ ∀ p ∈ placed, ∀ e ∈ m.entries,
    moves scrub keep e.1 = false → p.2.1 ≠ e.1 := by
  have hkeys : (placed.map (fun p => p.2.1) ++
    (m.entries.filter (fun e => !moves scrub keep e.1)).map Prod.fst).Nodup := by
    have hmap := (hnew.map Prod.fst).nodup_iff.mp (Table.nodup_keys _)
    rw [List.map_append,List.map_map] at hmap
    exact hmap
  refine ⟨(List.nodup_append.mp hkeys).1,fun p hp e he hstay => ?_⟩
  refine (List.nodup_append.mp hkeys).2.2 _ (List.mem_map_of_mem hp) _ (List.mem_map_of_mem
    (List.mem_filter.mpr ⟨he,?_⟩))
  rw [hstay]
  rfl

end kept

/-- No value is lost, what is kept or not changed by the scrubbing stays under its key, every other
entry has a key of its own that is its scrubbed name or that name with a number, and doing it again
changes nothing where the scrubbing is idempotent and leaves names with a number alone. -/
theorem renameKeys_settles {ν : Type} (scrub : List UInt8 → List UInt8) (keep : List UInt8 → Bool)
    (m : Table (List UInt8) ν) :
    (renameKeys scrub keep m).values.Perm m.values
      ∧ (∀ key v, m.get key = some v → keep key = true ∨ scrub key = key →
        (renameKeys scrub keep m).get key = some v)
      ∧ (∃ place : List UInt8 → List UInt8, ∀ key v, m.get key = some v → keep key = false →
        scrub key ≠ key →
          (renameKeys scrub keep m).get (place key) = some v ∧ NamedFor scrub key (place key)
            ∧ ∀ key' v', m.get key' = some v' → (if keep key' = true ∨ scrub key' = key' then
              key' else place key') = place key → key' = key)
      ∧ ((∀ t, scrub (scrub t) = scrub t) →
        (∀ t n, scrub (suffixed (scrub t) n) = suffixed (scrub t) n) →
          renameKeys scrub keep (renameKeys scrub keep m) = renameKeys scrub keep m) := by
  obtain ⟨placed,hold,hnew,hnames⟩ := @renameKeys_spec _ scrub keep m
  obtain ⟨hplaced,happart⟩ := nodup_placed hnew
  refine ⟨?_,?_,⟨placeIn placed,?_⟩,?_⟩
  · have hvalues : (placed.map (fun p => p.2.2)).Perm
      ((m.entries.filter (fun e => moves scrub keep e.1)).map Prod.snd) := by
      have hmap := hold.map Prod.snd
      rwa [List.map_map] at hmap
    have hall := hnew.map Prod.snd
    rw [List.map_append,List.map_map] at hall
    have hsplit := (List.filter_append_perm (fun e => moves scrub keep e.1) m.entries).map Prod.snd
    rw [List.map_append] at hsplit
    exact hall.trans ((List.Perm.append_right _ hvalues).trans hsplit)
  · intro key v hget hstay
    have hmoves : moves scrub keep key = false := not_moves hstay
    refine Table.get_of_mem (hnew.mem_iff.mpr
      (List.mem_append_right _ (List.mem_filter.mpr ⟨Table.mem_of_get hget,?_⟩)))
    rw [hmoves]
    rfl
  · intro key v hget hkeep hne
    have hmem := placed_of_moved hold hget (moves_iff.mpr ⟨hkeep,hne⟩)
    refine ⟨Table.get_of_mem (hnew.mem_iff.mpr
      (List.mem_append_left _ (List.mem_map.mpr ⟨_,hmem,rfl⟩))),hnames _ hmem,?_⟩
    intro key' v' hget' heq
    by_cases hstay : keep key' = true ∨ scrub key' = key'
    · rw [if_pos hstay] at heq
      exact absurd heq.symm (happart _ hmem _ (Table.mem_of_get hget') (not_moves hstay))
    · rw [if_neg hstay] at heq
      have hmoves : moves scrub keep key' = true :=
        moves_iff.mpr ⟨by simpa using fun h => hstay (Or.inl h),fun h => hstay (Or.inr h)⟩
      have hmem' := placed_of_moved hold hget' hmoves
      have hsame := List.inj_on_of_nodup_map hplaced hmem' hmem heq
      exact (Prod.mk.inj hsame).1
  · intro hidem hsuffix
    have hnone : moved scrub keep (renameKeys scrub keep m) = [] := by
      refine List.perm_nil.mp ((List.mergeSort_perm _ _).trans ?_)
      rw [List.filter_eq_nil_iff.mpr (fun e he => ?_)]
      rw [moves_iff]
      rintro ⟨hkeep,hne⟩
      obtain hmem | hmem := List.mem_append.mp (hnew.mem_iff.mp he)
      · obtain ⟨p,hp,rfl⟩ := List.mem_map.mp hmem
        obtain h | ⟨n,-,h⟩ := hnames p hp
        · exact hne (by rw [h,hidem])
        · exact hne (by rw [h,hsuffix])
      · have hstay := (List.mem_filter.mp hmem).2
        rw [moves_iff.mpr ⟨hkeep,hne⟩] at hstay
        cases hstay
    exact if_pos hnone

end Manvi.Session.Keys
