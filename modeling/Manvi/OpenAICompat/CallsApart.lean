import Manvi.OpenAICompat.Calls

/-! Interleaved fragments of several calls stay with their calls. -/
namespace Manvi.OpenAICompat.Calls

/-- What the server calls a tool call. -/
structure Call where
  id : String
  name : String
  deriving DecidableEq

variable {κ : Type*} [DecidableEq κ]

/-- The arguments of the fragments of a call, in order. -/
def argumentsOf (frags : List (κ × Fragment)) (k : κ) : String :=
  ((frags.filter (fun p => p.1 = k)).map (fun p => p.2.arguments)).foldl (· ++ ·) ""

/-- The id of every call is its own, and a fragment that names its call or its tool gives their
names; every tool is named by a fragment. -/
structure Labelled (call : κ → Call) (frags : List (κ × Fragment)) : Prop where
  named : ∀ p ∈ frags, (call p.1).id ≠ ""
  own : ∀ p ∈ frags, ∀ q ∈ frags, (call p.1).id = (call q.1).id → p.1 = q.1
  tool : ∀ p ∈ frags, p.2.name = "" ∨ p.2.name = (call p.1).name
  told : ∀ p ∈ frags, ∃ q ∈ frags, q.1 = p.1 ∧ q.2.name = (call p.1).name

/-- Every fragment carries the id of its call, and any index. -/
def ByID (call : κ → Call) (frags : List (κ × Fragment)) : Prop :=
  ∀ p ∈ frags, p.2.id = (call p.1).id

/-- Every fragment carries the index of its call, which no other call has, and some carry its id. -/
structure ByIndex (call : κ → Call) (index : κ → ℤ) (frags : List (κ × Fragment)) : Prop where
  at_index : ∀ p ∈ frags, p.2.index = index p.1
  own : ∀ p ∈ frags, ∀ q ∈ frags, index p.1 = index q.1 → p.1 = q.1
  id : ∀ p ∈ frags, p.2.id = "" ∨ p.2.id = (call p.1).id
  some : ∀ p ∈ frags, ∃ q ∈ frags, q.1 = p.1 ∧ q.2.id = (call p.1).id

/-- There is one accumulator for each call, with its id, its name and its arguments. -/
def KeptApart (call : κ → Call) (frags : List (κ × Fragment)) (s : Stream) : Prop :=
  ∃ slot : κ → ℤ, Set.BijOn slot {k | k ∈ frags.map Prod.fst} {sl | (s.calls sl).isSome} ∧
    ∀ k ∈ frags.map Prod.fst, ∃ acc, s.calls (slot k) = some acc ∧ acc.id = (call k).id ∧
    acc.name = (call k).name ∧
      acc.args = argumentsOf frags k

/-- Some fragment of a call carried an id. -/
def identified (frags : List (κ × Fragment)) (k : κ) : Bool :=
  frags.any (fun p => p.1 = k ∧ p.2.id ≠ "")

/-- Some fragment of a call carried a name. -/
def named (frags : List (κ × Fragment)) (k : κ) : Bool :=
  frags.any (fun p => p.1 = k ∧ p.2.name ≠ "")

/-- What an accumulator has of a call after some fragments. -/
structure Holds (call : κ → Call) (frags : List (κ × Fragment)) (k : κ)
    (acc : Accumulator) : Prop where
  fromWire : acc.idFromWire = identified frags k
  id : identified frags k = true → acc.id = (call k).id
  name : acc.name = if named frags k then (call k).name else ""
  args : acc.args = argumentsOf frags k

section holds
variable {call : κ → Call} {frags : List (κ × Fragment)} {k : κ} {d : Fragment} {acc : Accumulator}

@[simp] lemma identified_concat (frags : List (κ × Fragment)) (j : κ) :
    identified (frags ++ [(k,d)]) j = (identified frags j || (k = j ∧ d.id ≠ "")) := by
  simp [identified]

@[simp] lemma named_concat (frags : List (κ × Fragment)) (j : κ) :
    named (frags ++ [(k,d)]) j = (named frags j || (k = j ∧ d.name ≠ "")) := by
  simp [named]

@[simp] lemma argumentsOf_concat_self (frags : List (κ × Fragment)) (k : κ) (d : Fragment) :
    argumentsOf (frags ++ [(k,d)]) k = argumentsOf frags k ++ d.arguments := by
  simp [argumentsOf]

lemma argumentsOf_concat_of_ne (frags : List (κ × Fragment)) {j : κ} (h : k ≠ j) (d : Fragment) :
    argumentsOf (frags ++ [(k,d)]) j = argumentsOf frags j := by
  simp [argumentsOf,h]

/-- A new accumulator has nothing of a call that is new. -/
lemma Holds.fresh (hk : k ∉ frags.map Prod.fst) (slot : ℤ) (block : ℕ) :
    Holds call frags k ⟨slot,"","","",false,false,block⟩ := by
  have hno : ∀ p ∈ frags, p.1 ≠ k := fun p hp he => hk (List.mem_map.mpr ⟨p,hp,he⟩)
  have hid : identified frags k = false := by
    rw [identified,List.any_eq_false]
    intro p hp
    simp [hno p hp]
  have hname : named frags k = false := by
    rw [named,List.any_eq_false]
    intro p hp
    simp [hno p hp]
  have hargs : frags.filter (fun p => p.1 = k) = [] := by
    rw [List.filter_eq_nil_iff]
    intro p hp
    simp [hno p hp]
  refine ⟨hid.symm,?_,?_,?_⟩
  · rw [hid]
    simp
  · rw [hname]
    rfl
  · rw [argumentsOf,hargs]
    rfl

/-- A fragment of another call. -/
lemma Holds.other {j : κ} (h : Holds call frags j acc) (hne : k ≠ j) (d : Fragment) :
    Holds call (frags ++ [(k,d)]) j acc := by
  have hid : identified (frags ++ [(k,d)]) j = identified frags j := by simp [identified_concat,hne]
  have hname : named (frags ++ [(k,d)]) j = named frags j := by simp [named_concat,hne]
  refine ⟨?_,?_,?_,?_⟩
  · rw [hid]
    exact h.fromWire
  · rw [hid]
    exact h.id
  · rw [hname]
    exact h.name
  · rw [argumentsOf_concat_of_ne frags hne]
    exact h.args

/-- A fragment of the call. -/
lemma Holds.own (h : Holds call frags k acc) (hne : (call k).id ≠ "")
    (hid : d.id = "" ∨ d.id = (call k).id) (hname : d.name = "" ∨ d.name = (call k).name)
    (n : ℕ) : Holds call (frags ++ [(k,d)]) k (Stream.filled acc d n) := by
  refine ⟨?_,?_,?_,?_⟩
  · rw [Stream.filled_idFromWire,Stream.identify,identified_concat]
    split_ifs with h1 h2
    · simp [h1]
    · rw [not_not] at h1
      simp [h1,h.fromWire]
    · rw [not_not] at h1
      simp [h1,h.fromWire]
  · rw [Stream.filled_id,Stream.identify,identified_concat]
    split_ifs with h1 h2
    · intro _
      exact hid.resolve_left h1
    · rw [not_not] at h1
      intro hident
      have hold := h.id (by simpa [h1] using hident)
      exact absurd (hold.symm.trans h2) hne
    · rw [not_not] at h1
      intro hident
      exact h.id (by simpa [h1] using hident)
  · rw [Stream.filled_name,Stream.rename_name,Stream.identify_name,named_concat,h.name]
    by_cases hd : d.name = ""
    · simp [hd]
    · have hdk := hname.resolve_left hd
      rw [hdk] at hd
      simp [hdk,hd]
  · rw [Stream.filled_args,argumentsOf_concat_self,h.args]

end holds

/-- What tells the calls apart: where a call may be found open, and, unless only its index does, an
id on every fragment. -/
structure Addressed (call : κ → Call) (place : κ → ℤ → Prop) (indexed : Prop)
    (frags : List (κ × Fragment)) : Prop where
  id : ∀ p ∈ frags, p.2.id = "" ∨ p.2.id = (call p.1).id
  placed : ∀ p ∈ frags, place p.1 p.2.index
  apart : indexed → ∀ p ∈ frags, ∀ q ∈ frags, ∀ i, place p.1 i → place q.1 i → p.1 = q.1
  sole : indexed → ∀ k i j, place k i → place k j → i = j
  all : ¬ indexed → ∀ p ∈ frags, p.2.id ≠ ""

omit [DecidableEq κ] in
lemma ByID.addressed {call : κ → Call} {frags : List (κ × Fragment)} (h : ByID call frags)
    (hl : Labelled call frags) :
    Addressed call (fun _ _ => True) False frags where
  id := fun p hp => .inr (h p hp)
  placed := fun _ _ => trivial
  apart := fun h => h.elim
  sole := fun h => h.elim
  all := fun _ p hp => by
    rw [h p hp]
    exact hl.named p hp

omit [DecidableEq κ] in
lemma ByIndex.addressed {call : κ → Call} {index : κ → ℤ} {frags : List (κ × Fragment)}
    (h : ByIndex call index frags) :
    Addressed call (fun k i => index k = i) True frags where
  id := h.id
  placed := fun p hp => (h.at_index p hp).symm
  apart := fun _ p hp q hq _ hpi hqi => h.own p hp q hq (hpi.trans hqi.symm)
  sole := fun _ _ _ _ hi hj => hi.symm.trans hj
  all := fun h => absurd trivial h

/-- The calls of the fragments so far have their slots, and the maps lead to them. -/
structure Apart (call : κ → Call) (place : κ → ℤ → Prop) (indexed : Prop)
    (frags : List (κ × Fragment)) (slot : κ → ℤ)
    (s : Stream) : Prop where
  inj : ∀ j ∈ frags.map Prod.fst, ∀ k ∈ frags.map Prod.fst, slot j = slot k → j = k
  order : ∀ sl, sl ∈ s.callOrder ↔ ∃ k ∈ frags.map Prod.fst, slot k = sl
  holds : ∀ k ∈ frags.map Prod.fst, ∃ acc, s.calls (slot k) = some acc ∧ Holds call frags k acc
  byID : ∀ id sl, s.callsByID id = some sl ↔ ∃ k ∈ frags.map Prod.fst, identified frags k = true ∧
    (call k).id = id ∧ slot k = sl
  atIndex : ∀ i sl, s.openAtIndex i = some sl → ∃ k ∈ frags.map Prod.fst, slot k = sl ∧ place k i
  stays : indexed → ∀ k ∈ frags.map Prod.fst, ∀ i, place k i → s.openAtIndex i = some (slot k)

namespace Stream

/-- The maps lead the fragments like this one to a slot. -/
def point (s : Stream) (d : Fragment) (slot : ℤ) : Stream := { s with
  openAtIndex := Function.update s.openAtIndex d.index (some slot)
  callsByID := if d.id ≠ "" then Function.update s.callsByID d.id (some slot) else s.callsByID }

end Stream

section apart
variable {call : κ → Call} {place : κ → ℤ → Prop} {indexed : Prop}
    {frags rest : List (κ × Fragment)} {k : κ} {d : Fragment}
  {slot : κ → ℤ} {s : Stream}

/-- The id of a fragment leads to its call if a fragment before named it. -/
lemma Apart.callsByID_eq (hl : Labelled call (frags ++ (k,d) :: rest))
    (h : Apart call place indexed frags slot s)
    (hid : d.id = (call k).id) (hseen : identified frags k = true → k ∈ frags.map Prod.fst) :
    s.callsByID d.id = if identified frags k then some (slot k) else none := by
  have hsole : ∀ j ∈ frags.map Prod.fst, (call j).id = d.id → j = k := by
    intro j hj hjd
    obtain ⟨p,hp,rfl⟩ := List.mem_map.mp hj
    exact hl.own p (by simp [hp]) (k,d) (by simp) (hjd.trans hid)
  split_ifs with hident
  · exact (h.byID _ _).mpr ⟨k,hseen hident,hident,hid.symm,rfl⟩
  · rw [Option.eq_none_iff_forall_ne_some]
    intro sl hsl
    obtain ⟨j,hj,hjident,hjd,-⟩ := (h.byID _ _).mp hsl
    rw [hsole j hj hjd] at hjident
    exact hident hjident

lemma mem_of_identified (h : identified frags k = true) : k ∈ frags.map Prod.fst := by
  obtain ⟨p,hp,hpk⟩ := List.any_eq_true.mp h
  have hpk : p.1 = k ∧ p.2.id ≠ "" := by simpa using hpk
  exact List.mem_map.mpr ⟨p,hp,hpk.1⟩

lemma identified_of_all (hall : ∀ p ∈ frags, p.2.id ≠ "") (hk : k ∈ frags.map Prod.fst) :
    identified frags k = true := by
  obtain ⟨p,hp,rfl⟩ := List.mem_map.mp hk
  exact List.any_eq_true.mpr ⟨p,hp,by simp [hall p hp]⟩

/-- A fragment of a call that is known goes to its slot. -/
lemma Apart.resolve_known (hl : Labelled call (frags ++ (k,d) :: rest))
    (ha : Addressed call place indexed (frags ++ (k,d) :: rest))
    (h : Apart call place indexed frags slot s) (hk : k ∈ frags.map Prod.fst) :
    s.resolveAccumulator d = (s.point d (slot k),slot k) := by
  have hmem : (k,d) ∈ frags ++ (k,d) :: rest := by simp
  have hleft : ∀ p ∈ frags, p ∈ frags ++ (k,d) :: rest := fun p hp => List.mem_append_left _ hp
  -- where the maps by id do not answer, the call is open at the index of the fragment
  have hindex : d.id = "" ∨ identified frags k = false → s.resolveAtIndex d = (s.point d (slot k),
    slot k) := by
    intro hcase
    have hindexed : indexed := by
      by_contra hnot
      obtain hempty | hunknown := hcase
      · exact ha.all hnot (k,d) hmem hempty
      · rw [identified_of_all (fun p hp => ha.all hnot p (hleft p hp)) hk] at hunknown
        cases hunknown
    have hopen := h.stays hindexed k hk d.index (ha.placed (k,d) hmem)
    obtain ⟨acc,hacc,hholds⟩ := h.holds k hk
    have hcond : d.id = "" ∨ acc.idFromWire = false ∨ acc.id = d.id := by
      rw [hholds.fromWire]
      tauto
    unfold Stream.resolveAtIndex Stream.point
    rw [hopen]
    dsimp only
    rw [hacc]
    dsimp only
    rw [if_pos hcond,← hopen,Function.update_eq_self]
  unfold Stream.resolveAccumulator
  split_ifs with hid
  · have hdk := (ha.id (k,d) hmem).resolve_left hid
    rw [h.callsByID_eq hl hdk mem_of_identified]
    by_cases hident : identified frags k = true
    · rw [if_pos hident]
      have hsame : s.callsByID d.id = some
        (slot k) := by rw [h.callsByID_eq hl hdk mem_of_identified,if_pos hident]
      have hupdate : Function.update s.callsByID d.id (some (slot k)) =
        s.callsByID := by rw [← hsame,Function.update_eq_self]
      unfold Stream.point
      rw [if_pos hid,hupdate]
    · rw [if_neg hident]
      exact hindex (.inr (by simpa using hident))
  · exact hindex (.inl (not_not.mp hid))

/-- A fragment of a new call opens an accumulator. -/
lemma Apart.resolve_new (hl : Labelled call (frags ++ (k,d) :: rest))
    (ha : Addressed call place indexed (frags ++ (k,d) :: rest))
    (h : Apart call place indexed frags slot s) (hk : k ∉ frags.map Prod.fst) :
    s.resolveAccumulator d = s.openCall d := by
  have hmem : (k,d) ∈ frags ++ (k,d) :: rest := by simp
  have hunknown : identified frags k = false := by
    by_contra hnot
    exact hk (mem_of_identified (by simpa using hnot))
  have hindex : s.resolveAtIndex d = s.openCall d := by
    unfold Stream.resolveAtIndex
    split
    · rfl
    · rename_i sl hsl
      obtain ⟨j,hj,rfl,hplace⟩ := h.atIndex _ _ hsl
      have hjk : j ≠ k := by
        rintro rfl
        exact hk hj
      obtain ⟨p,hp,rfl⟩ := List.mem_map.mp hj
      have hpmem : p ∈ frags ++ (k,d) :: rest := List.mem_append_left _ hp
      obtain ⟨acc,hacc,hholds⟩ := h.holds _ hj
      rw [hacc]
      dsimp only
      have hnot : ¬ indexed := fun hi =>
        hjk (ha.apart hi p hpmem (k,d) hmem _ hplace (ha.placed (k,d) hmem))
      have hident := identified_of_all (fun q hq => ha.all hnot q (List.mem_append_left _ hq)) hj
      rw [if_neg]
      rintro (hd | hwire | hid)
      · exact ha.all hnot (k,d) hmem hd
      · rw [hholds.fromWire,hident] at hwire
        cases hwire
      · rw [hholds.id hident] at hid
        have hdk := (ha.id (k,d) hmem).resolve_left (ha.all hnot (k,d) hmem)
        exact hjk (hl.own p hpmem (k,d) hmem (hid.trans hdk))
  unfold Stream.resolveAccumulator
  split_ifs with hid
  · rw [h.callsByID_eq hl ((ha.id (k,d) hmem).resolve_left hid) mem_of_identified,hunknown]
    exact hindex
  · exact hindex

omit [DecidableEq κ] in
lemma mem_labels_concat {j : κ} : j ∈ (frags ++ [(k,d)]).map Prod.fst ↔ j ∈ frags.map Prod.fst ∨
    j = k := by
  simp

/-- The call of a fragment has a slot that no other has, its accumulator takes the fragment in, and
the maps lead to it. -/
lemma Apart.extend (hl : Labelled call (frags ++ (k,d) :: rest))
    (ha : Addressed call place indexed (frags ++ (k,d) :: rest))
    (h : Apart call place indexed frags slot s) {s' : Stream} {slot' : κ → ℤ} {acc : Accumulator}
    {n : ℕ}
    (hagree : ∀ j ∈ frags.map Prod.fst, slot' j = slot j) (hown : ∀ j ∈ frags.map Prod.fst, j ≠ k →
      slot j ≠ slot' k)
    (hacc : Holds call frags k acc) (horder : ∀ sl, sl ∈ s'.callOrder ↔ sl ∈ s.callOrder ∨
      sl = slot' k)
    (hcalls : s'.calls = Function.update s.calls (slot' k) (some (Stream.filled acc d n)))
    (hindex : s'.openAtIndex = (s.point d (slot' k)).openAtIndex)
    (hids : s'.callsByID = (s.point d (slot' k)).callsByID) :
    Apart call place indexed (frags ++ [(k,d)]) slot' s' := by
  have hmem : (k,d) ∈ frags ++ (k,d) :: rest := by simp
  have hkmem : k ∈ (frags ++ [(k,d)]).map Prod.fst := by simp
  have hwhole : ∀ j ∈ (frags ++ [(k,d)]).map Prod.fst, ∃ p ∈ frags ++ (k,d) :: rest, p.1 = j := by
    intro j hj
    obtain ⟨p,hp,rfl⟩ := List.mem_map.mp hj
    refine ⟨p,?_,rfl⟩
    rw [List.mem_append,List.mem_singleton] at hp
    obtain hp | rfl := hp
    · exact List.mem_append_left _ hp
    · exact hmem
  refine ⟨?_,?_,?_,?_,?_,?_⟩
  · intro i hi j hj hij
    by_cases hik : i = k
    · by_cases hjk : j = k
      · rw [hik,hjk]
      · have hj' := (mem_labels_concat.mp hj).resolve_right hjk
        rw [hik,hagree j hj'] at hij
        exact absurd hij.symm (hown j hj' hjk)
    · have hi' := (mem_labels_concat.mp hi).resolve_right hik
      by_cases hjk : j = k
      · rw [hjk,hagree i hi'] at hij
        exact absurd hij (hown i hi' hik)
      · have hj' := (mem_labels_concat.mp hj).resolve_right hjk
        rw [hagree i hi',hagree j hj'] at hij
        exact h.inj i hi' j hj' hij
  · intro sl
    rw [horder sl,h.order sl]
    constructor
    · rintro (⟨j,hj,hsl⟩ | hsl)
      · exact ⟨j,mem_labels_concat.mpr (.inl hj),(hagree j hj).trans hsl⟩
      · exact ⟨k,hkmem,hsl.symm⟩
    · rintro ⟨j,hj,hsl⟩
      obtain hj | rfl := mem_labels_concat.mp hj
      · exact .inl ⟨j,hj,(hagree j hj).symm.trans hsl⟩
      · exact .inr hsl.symm
  · intro j hj
    rw [hcalls]
    by_cases hjk : j = k
    · subst hjk
      exact ⟨_,Function.update_self _ _ _,
        hacc.own (hl.named _ hmem) (ha.id _ hmem) (hl.tool _ hmem) n⟩
    · have hj' := (mem_labels_concat.mp hj).resolve_right hjk
      obtain ⟨acc',hacc',hholds⟩ := h.holds j hj'
      refine ⟨acc',?_,hholds.other (Ne.symm hjk) d⟩
      rw [hagree j hj',Function.update_of_ne (hown j hj' hjk)]
      exact hacc'
  · intro id sl
    have hold : s.callsByID id = some sl ↔ ∃ j ∈ frags.map Prod.fst, identified frags j = true ∧
      (call j).id = id ∧ slot' j = sl := by
      rw [h.byID id sl]
      refine exists_congr (fun j => and_congr_right (fun hj => ?_))
      rw [hagree j hj]
    rw [hids,Stream.point]
    dsimp only
    by_cases hid : d.id = ""
    · rw [if_neg (not_not.mpr hid),hold]
      constructor
      · rintro ⟨j,hj,hident,hrest⟩
        exact ⟨j,mem_labels_concat.mpr (.inl hj),by rw [identified_concat,hident]; rfl,hrest⟩
      · rintro ⟨j,hj,hident,hrest⟩
        have hident : identified frags j = true := by simpa [identified_concat,hid] using hident
        exact ⟨j,mem_of_identified hident,hident,hrest⟩
    · rw [if_pos hid]
      have hdk := (ha.id (k,d) hmem).resolve_left hid
      have hkident : identified (frags ++ [(k,d)]) k = true := by simp [identified_concat,hid]
      by_cases hidd : id = d.id
      · subst hidd
        rw [Function.update_self]
        constructor
        · intro hsl
          cases hsl
          exact ⟨k,hkmem,hkident,hdk.symm,rfl⟩
        · rintro ⟨j,hj,-,hjd,rfl⟩
          obtain ⟨p,hp,rfl⟩ := hwhole j hj
          rw [hl.own p hp (k,d) hmem (hjd.trans hdk)]
      · rw [Function.update_of_ne hidd,hold]
        constructor
        · rintro ⟨j,hj,hident,hrest⟩
          exact ⟨j,mem_labels_concat.mpr (.inl hj),by rw [identified_concat,hident]; rfl,hrest⟩
        · rintro ⟨j,hj,hident,hjd,hsl⟩
          have hjk : k ≠ j := by
            rintro rfl
            exact hidd (hjd.symm.trans hdk.symm)
          have hident : identified frags j = true := by simpa [identified_concat,hjk] using hident
          exact ⟨j,mem_of_identified hident,hident,hjd,hsl⟩
  · intro i sl hsl
    rw [hindex] at hsl
    have hsl : Function.update s.openAtIndex d.index (some (slot' k)) i = some sl := hsl
    rw [Function.update_apply] at hsl
    split_ifs at hsl with hi
    · cases hsl
      exact ⟨k,hkmem,rfl,hi ▸ ha.placed (k,d) hmem⟩
    · obtain ⟨j,hj,hjsl,hplace⟩ := h.atIndex i sl hsl
      exact ⟨j,mem_labels_concat.mpr (.inl hj),(hagree j hj).trans hjsl,hplace⟩
  · intro hindexed j hj i hplace
    rw [hindex]
    show Function.update s.openAtIndex d.index (some (slot' k)) i = some (slot' j)
    by_cases hjk : j = k
    · subst hjk
      rw [ha.sole hindexed j i d.index hplace (ha.placed (j,d) hmem),Function.update_self]
    · have hj' := (mem_labels_concat.mp hj).resolve_right hjk
      rw [Function.update_of_ne,h.stays hindexed j hj' i hplace,hagree j hj']
      rintro rfl
      obtain ⟨p,hp,rfl⟩ := hwhole j hj
      exact hjk (ha.apart hindexed p hp (k,d) hmem _ hplace (ha.placed (k,d) hmem))

/-- One fragment. -/
lemma Apart.step (hl : Labelled call (frags ++ (k,d) :: rest))
    (ha : Addressed call place indexed (frags ++ (k,d) :: rest))
    (ht : s.Tallied) (h : Apart call place indexed frags slot s) (seq : ℕ → ℕ) :
    ∃ slot', Apart call place indexed (frags ++ [(k,d)]) slot' (s.applyToolCall seq d) := by
  by_cases hk : k ∈ frags.map Prod.fst
  · obtain ⟨acc,hacc,hholds⟩ := h.holds k hk
    have happly : s.applyToolCall seq d = (s.point d (slot k)).collect seq (slot k) acc d := by
      unfold Stream.applyToolCall
      rw [h.resolve_known hl ha hk]
      dsimp only
      rw [show (s.point d (slot k)).calls (slot k) = some acc from hacc]
    refine ⟨slot,?_⟩
    rw [happly]
    refine h.extend (n := seq s.minted) hl ha (fun _ _ => rfl) (fun j hj hjk he =>
      hjk (h.inj j hj k hk he)) hholds ?_ ?_ rfl rfl
    · intro sl
      refine ⟨.inl,?_⟩
      rintro (hsl | rfl)
      · exact hsl
      · exact (h.order _).mpr ⟨k,hk,rfl⟩
    · rw [Stream.collect_calls]
      rfl
  · have hnew := ht.newSlot_notMem d
    have happly : s.applyToolCall seq d =
        (s.openCall d).1.collect seq (s.newSlot d) ⟨s.newSlot d,"","","",false,false,
          s.nextIndex⟩ d := by
      unfold Stream.applyToolCall
      rw [h.resolve_new hl ha hk]
      dsimp only
      rw [show (s.openCall d).1.calls (s.openCall d).2 = some ⟨s.newSlot d,"","","",false,false,
        s.nextIndex⟩ from
        Function.update_self _ _ _]
      rfl
    have hself : Function.update slot k (s.newSlot d) k = s.newSlot d := Function.update_self _ _ _
    refine ⟨Function.update slot k (s.newSlot d),?_⟩
    rw [happly]
    refine h.extend (n := seq s.minted) hl ha ?_ ?_
      (Holds.fresh hk (s.newSlot d) s.nextIndex) ?_ ?_ ?_ ?_
    · intro j hj
      refine Function.update_of_ne ?_ _ _
      rintro rfl
      exact hk hj
    · intro j hj _ he
      rw [hself] at he
      exact hnew (he ▸ (h.order _).mpr ⟨j,hj,rfl⟩)
    · intro sl
      rw [hself]
      show sl ∈ s.callOrder ++ [s.newSlot d] ↔ _
      rw [List.mem_append,List.mem_singleton]
    · rw [hself,Stream.collect_calls]
      show Function.update (Function.update s.calls (s.newSlot d) _) (s.newSlot d) _ = _
      rw [Function.update_idem]
      rfl
    · rw [hself]
      rfl
    · rw [hself]
      rfl

/-- The fragments of a frame. -/
lemma Apart.applyToolCalls {more : List (κ × Fragment)}
    (hl : Labelled call (frags ++ (more ++ rest)))
    (ha : Addressed call place indexed (frags ++ (more ++ rest))) (ht : s.Tallied)
    (h : Apart call place indexed frags slot s)
    (seq : ℕ → ℕ) : ∃ slot', Apart call place indexed (frags ++
      more) slot' (s.applyToolCalls seq (more.map Prod.snd)) := by
  induction more generalizing frags s slot with
  | nil =>
    rw [List.append_nil]
    exact ⟨slot,h⟩
  | cons p more ih =>
    obtain ⟨k,d⟩ := p
    obtain ⟨slot',hstep⟩ := h.step hl ha ht seq
    have hcat : ∀ ps : List (κ × Fragment), frags ++ (k,d) :: ps = (frags ++ [(k,d)]) ++ ps :=
      fun ps => by simp
    rw [List.cons_append,hcat] at hl ha
    rw [hcat]
    exact ih hl ha (ht.applyToolCall d) hstep

/-- All frames of a stream. -/
lemma Apart.frames (fs : List (ℕ × List (κ × Fragment)))
    (hl : Labelled call (frags ++ (fs.map Prod.snd).flatten))
    (ha : Addressed call place indexed (frags ++ (fs.map Prod.snd).flatten)) (ht : s.Tallied)
    (h : Apart call place indexed frags slot s) (seq : ℕ → ℕ) :
    ∃ slot', Apart call place indexed (frags ++ (fs.map Prod.snd).flatten) slot'
      (s.frames seq (fs.map (fun f => (f.1,f.2.map Prod.snd)))) := by
  induction fs generalizing frags s slot with
  | nil =>
    rw [List.map_nil,List.flatten_nil,List.append_nil]
    exact ⟨slot,h⟩
  | cons f fs ih =>
    rw [List.map_cons,List.flatten_cons] at hl ha ⊢
    have ht' : Stream.Tallied { s with nextIndex := s.nextIndex+f.1, pending := [] } :=
      ⟨ht.nodup,ht.keys,ht.byID,ht.atIndex,ht.callBytes,ht.argBytes⟩
    have h' : Apart call place indexed frags slot { s with
      nextIndex := s.nextIndex+f.1, pending := [] } :=
      ⟨h.inj,h.order,h.holds,h.byID,h.atIndex,h.stays⟩
    obtain ⟨slot',hframe⟩ := h'.applyToolCalls hl ha ht' seq
    rw [← List.append_assoc] at hl ha ⊢
    exact ih hl ha (ht'.applyToolCalls _) hframe

lemma Apart.start (call : κ → Call) (place : κ → ℤ → Prop) (indexed : Prop) (slot : κ → ℤ) :
    Apart call place indexed [] slot Stream.start where
  inj := by simp
  order := by simp [Stream.start]
  holds := by simp
  byID := by simp [Stream.start]
  atIndex := by simp [Stream.start]
  stays := by simp

/-- Once all fragments are in, each call has its accumulator. -/
lemma Apart.kept (hl : Labelled call frags) (ht : s.Tallied)
    (h : Apart call place indexed frags slot s)
    (hid : ∀ p ∈ frags, ∃ q ∈ frags, q.1 = p.1 ∧ q.2.id = (call p.1).id) :
    KeptApart call frags s := by
  refine ⟨slot,⟨?_,?_,?_⟩,?_⟩
  · intro k hk
    obtain ⟨acc,hacc,-⟩ := h.holds k hk
    show (s.calls (slot k)).isSome
    rw [hacc]
    rfl
  · intro j hj k hk he
    exact h.inj j hj k hk he
  · intro sl hsl
    exact (h.order sl).mp ((ht.keys sl).mp hsl)
  · intro k hk
    obtain ⟨acc,hacc,hholds⟩ := h.holds k hk
    obtain ⟨p,hp,rfl⟩ := List.mem_map.mp hk
    refine ⟨acc,hacc,hholds.id ?_,?_,hholds.args⟩
    · obtain ⟨q,hq,hqp,hqid⟩ := hid p hp
      refine List.any_eq_true.mpr ⟨q,hq,?_⟩
      have hne : q.2.id ≠ "" := hqid ▸ hl.named p hp
      simp [hqp,hne]
    · rw [hholds.name]
      split_ifs with hnamed
      · rfl
      · obtain ⟨q,hq,hqp,hqname⟩ := hl.told p hp
        have hno := List.any_eq_false.mp (Bool.eq_false_iff.mpr hnamed) q hq
        have hempty : q.2.name = "" := by simpa [hqp] using hno
        exact hempty.symm.trans hqname

end apart

/-- The tallies of a stream are those of its open accumulators after any fragments, and the
fragments of calls that their ids or their indices tell apart stay with their calls. -/
theorem fragments_kept_apart (seq : ℕ → ℕ) {call : κ → Call} {fs : List (ℕ × List (κ × Fragment))}
    (hl : Labelled call (fs.map Prod.snd).flatten)
    (ha : ByID call (fs.map Prod.snd).flatten ∨ ∃ index,
      ByIndex call index (fs.map Prod.snd).flatten) :
    KeptApart call (fs.map Prod.snd).flatten (Stream.start.frames seq
      (fs.map (fun f => (f.1,f.2.map Prod.snd)))) ∧
    ∀ gs : List (ℕ × List Fragment), (Stream.start.frames seq gs).callBytes =
        ((Stream.start.frames seq gs).opened.map Accumulator.retained).sum ∧
      (Stream.start.frames seq gs).argBytes = ((Stream.start.frames seq gs).opened.map (fun acc =>
        (acc.args.utf8ByteSize : ℤ))).sum := by
  refine ⟨?_,fun gs => ?_⟩
  · have ht : (Stream.start.frames seq (fs.map (fun f => (f.1,f.2.map Prod.snd)))).Tallied :=
      Stream.Tallied.start.frames _
    obtain hid | ⟨index,hindex⟩ := ha
    · obtain ⟨slot,h⟩ := (Apart.start call (fun _ _ => True) False (fun _ => 0)).frames fs hl
        (hid.addressed hl)
        Stream.Tallied.start seq
      exact h.kept hl ht (fun p hp => ⟨p,hp,rfl,hid p hp⟩)
    · obtain ⟨slot,h⟩ := (Apart.start call (fun k i => index k = i) True
        (fun _ => 0)).frames fs hl hindex.addressed
        Stream.Tallied.start seq
      exact h.kept hl ht hindex.some
  · have ht : (Stream.start.frames seq gs).Tallied := Stream.Tallied.start.frames gs
    exact ⟨ht.callBytes,ht.argBytes⟩

/-- Two calls whose fragments all claim the index 0 and carry their ids. -/
theorem fragments_kept_apart_two : let call : Bool → Call :=
    fun k => if k then ⟨"c1","alpha"⟩ else ⟨"c2","beta"⟩
    let fs := [(0,[(true,⟨0,"c1","alpha","[1"⟩),(false,⟨0,"c2","beta","[2"⟩)]),
      (1,[(true,⟨0,"c1","",",3]"⟩),(false,⟨0,"c2","","]"⟩)])]
    KeptApart call (fs.map Prod.snd).flatten (Stream.start.frames id
      (fs.map (fun f => (f.1,f.2.map Prod.snd)))) := by
  intro call fs
  have hfrags : (fs.map Prod.snd).flatten = [(true,⟨0,"c1","alpha","[1"⟩),
    (false,⟨0,"c2","beta","[2"⟩),(true,⟨0,"c1","",",3]"⟩),
    (false,⟨0,"c2","","]"⟩)] := rfl
  refine (fragments_kept_apart id ?_ (.inl ?_)).1
  · rw [hfrags]
    refine ⟨?_,?_,?_,?_⟩
    · decide
    · decide
    · decide
    · decide
  · rw [hfrags]
    unfold ByID
    decide

end Manvi.OpenAICompat.Calls
