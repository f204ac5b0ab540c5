import Manvi.Prompt.Assembler

/-! The account of a prompt: every section is in it once, and the text is what the account says. -/
namespace Manvi.Prompt
open Manvi.Encoding Manvi.Harness

variable {a : Assembler} {s : Building} {entries kept : List Entry}

def Entry.pair (e : Entry) : Text × Text := (e.part.name,e.source)

def Omitted.pair (o : Omitted) : Text × Text := (o.name,o.source)

/-- The sections that the sources contributed, with the name of their source. -/
def contributed (sources : List Source) : List Entry :=
  sources.flatMap (fun s => match s.sections with
    | .error _ => []
    | .ok sections => sections.map (fun part => ⟨part,s.name⟩))

/-- The sections that are not in the prompt. -/
def missing (omitted : List Omitted) : List Omitted := omitted.filter (fun o => !o.reason.isKept)

/-- Nothing was kept over the budget. -/
def NoneKept (omitted : List Omitted) : Prop := ∀ o ∈ omitted, o.reason.isKept = false

def Within (budget : ℤ) (used : ℕ) : Prop := 0 < budget → (used : ℤ) ≤ budget

/-- What a prompt is after some entries: the kept ones joined, with their sums, and the rest in the
account. -/
structure Placed (a : Assembler) (before : List Omitted) (entries : List Entry) (s : Building)
    (kept : List Entry) : Prop where
  sub : kept.Sublist entries
  essential : kept.filter (fun e => e.part.essential) = entries.filter (fun e => e.part.essential)
  text : s.text = joined (kept.map Entry.text)
  included : s.included = kept.map Entry.record
  runes : s.usedRunes = (kept.map Entry.runes).sum
  tokens : s.usedTokens = (kept.map Entry.tokens).sum
  account : ((missing before).map Omitted.pair ++
    entries.map Entry.pair).Perm ((missing s.omitted).map Omitted.pair ++ kept.map Entry.pair)
  within : NoneKept s.omitted → Within a.maxRunes s.usedRunes ∧ Within a.maxTokens s.usedTokens

section step
variable {before : List Omitted} {e : Entry}

lemma joined_ne_nil {ts : List Text} (hne : ts ≠ []) (h : ∀ t ∈ ts, Solid t) : joined ts ≠ [] :=
    (joined_solid hne h).1

@[simp] lemma missing_snoc (omitted : List Omitted) (o : Omitted) :
    missing (omitted ++ [o]) = missing omitted ++ (if o.reason.isKept then [] else [o]) := by
  unfold missing
  rw [List.filter_append,List.filter_singleton]
  cases o.reason.isKept with
  | true => rfl
  | false => rfl

lemma NoneKept.of_snoc {omitted : List Omitted} {o : Omitted} (h : NoneKept (omitted ++ [o])) :
    NoneKept omitted := fun x hx => h x (List.mem_append_left _ hx)

/-- An entry that is written is the last of the kept ones. -/
lemma Placed.write (h : Placed a before entries s kept)
    (hsolid : ∀ x ∈ entries ++ [e], Solid x.text)
    (hfits : NoneKept s.omitted → Within a.maxRunes (s.usedRunes+e.runes) ∧
      Within a.maxTokens (s.usedTokens+e.tokens)) :
    Placed a before (entries ++ [e]) (write s e) (kept ++ [e]) := by
  refine ⟨h.sub.append (List.Sublist.refl [e]),?_,?_,?_,?_,?_,?_,hfits⟩
  · rw [List.filter_append,List.filter_append,h.essential]
  · rw [List.map_append,List.map_singleton]
    unfold Prompt.write
    dsimp only
    rw [h.text]
    by_cases hk : kept.map Entry.text = []
    · rw [hk]
      rfl
    · have hne : joined (kept.map Entry.text) ≠ [] := by
        apply joined_ne_nil hk
        intro t ht
        obtain ⟨x,hx,rfl⟩ := List.mem_map.mp ht
        exact hsolid x (List.mem_append_left _ (h.sub.subset hx))
      rw [if_pos hne,joined_snoc hk]
  · rw [List.map_append,List.map_singleton,← h.included]
    rfl
  · rw [List.map_append,List.map_singleton,List.sum_append,List.sum_singleton,← h.runes]
    rfl
  · rw [List.map_append,List.map_singleton,List.sum_append,List.sum_singleton,← h.tokens]
    rfl
  · rw [List.map_append,List.map_append,← List.append_assoc,← List.append_assoc]
    exact h.account.append_right _

/-- An entry that is noted and written all the same. -/
lemma Placed.note_kept (h : Placed a before entries s kept) {reason : Reason}
    (hreason : reason.isKept = true) : Placed a before entries (note s e reason) kept := by
  refine ⟨h.sub,h.essential,h.text,h.included,h.runes,h.tokens,?_,
    fun hnone => h.within hnone.of_snoc⟩
  unfold note
  dsimp only
  rw [missing_snoc,if_pos hreason,List.append_nil]
  exact h.account

/-- An entry that is dropped is in the account. -/
lemma Placed.note_dropped (h : Placed a before entries s kept) (hnot : e.part.essential = false)
    {reason : Reason} (hreason : reason.isKept = false) :
    Placed a before (entries ++ [e]) (note s e reason) kept := by
  refine ⟨h.sub.trans (List.sublist_append_left _ _),?_,h.text,h.included,h.runes,h.tokens,?_,
    fun hnone => h.within hnone.of_snoc⟩
  · rw [List.filter_append,List.filter_singleton,hnot,h.essential]
    simp
  · unfold note
    dsimp only
    rw [missing_snoc,if_neg (by simpa using hreason),List.map_append,List.map_append,
      List.map_singleton,List.map_singleton,← List.append_assoc]
    refine (h.account.append_right _).trans ?_
    rw [List.append_assoc,List.append_assoc]
    exact List.perm_append_comm.append_left _

lemma Placed.step (h : Placed a before entries s kept) (hsolid : ∀ x ∈ entries ++ [e],
    Solid x.text) : ∃ kept', Placed a before (entries ++ [e]) (place a s e) kept' := by
  unfold place
  split
  · split
    · have hreason : (if overTokens a s e then Reason.keptTokens a.maxTokens
        else Reason.keptRunes a.maxRunes).isKept = true := by
        split
        · rfl
        · rfl
      generalize (if overTokens a s e then Reason.keptTokens a.maxTokens
        else Reason.keptRunes a.maxRunes) = reason at hreason
      refine ⟨kept ++ [e],(h.note_kept hreason).write hsolid fun hnone => ?_⟩
      have hnot := hnone _ (List.mem_append_right _ (List.mem_singleton_self _))
      rw [hreason] at hnot
      cases hnot
    · rename_i hnot
      refine ⟨kept,h.note_dropped (by simpa using hnot) ?_⟩
      split
      · rfl
      · rfl
  · rename_i hfits
    rw [Bool.not_eq_true,Bool.or_eq_false_iff] at hfits
    obtain ⟨hrunes,htokens⟩ := hfits
    unfold overRunes at hrunes
    unfold overTokens at htokens
    rw [decide_eq_false_iff_not] at hrunes htokens
    refine ⟨kept ++ [e],h.write hsolid fun _ => ⟨fun hpos => ?_,fun hpos => ?_⟩⟩
    · push_cast
      by_contra hover
      exact hrunes ⟨hpos,not_le.mp hover⟩
    · push_cast
      by_contra hover
      exact htokens ⟨hpos,not_le.mp hover⟩

lemma Placed.nothing (a : Assembler) (before : List Omitted) :
    Placed a before [] ⟨[],0,0,[],before⟩ [] :=
  ⟨List.Sublist.refl [],rfl,rfl,rfl,rfl,rfl,List.Perm.refl _,fun _ => ⟨fun h => h.le,fun h => h.le⟩⟩

/-- The loop over the entries, from what is placed already. -/
lemma Placed.run {rest : List Entry} (h : Placed a before entries s kept)
    (hsolid : ∀ x ∈ entries ++ rest, Solid x.text) :
    ∃ kept', Placed a before (entries ++ rest) (rest.foldl (place a) s) kept' := by
  induction rest generalizing entries s kept with
  | nil =>
    rw [List.append_nil]
    exact ⟨kept,h⟩
  | cons e rest ih =>
    rw [List.append_cons] at hsolid ⊢
    obtain ⟨kept',hkept'⟩ := h.step (fun x hx => hsolid x (List.mem_append_left _ hx))
    exact ih hkept' hsolid

end step

section gather

def Entry.blank (e : Entry) : Bool := e.text.isEmpty

def Entry.unused (e : Entry) : Omitted := ⟨e.part.name,e.source,.noContent⟩

lemma gatherSections (source : Text) (sections : List Section) (g : Gathered) :
    sections.foldl (gatherSection source) g = ⟨g.entries ++
      (sections.map (fun part => (⟨part,source⟩ : Entry))).filter (fun e => !e.blank),
      g.omitted ++ ((sections.map (fun part =>
        (⟨part,source⟩ : Entry))).filter Entry.blank).map Entry.unused,g.failed⟩ := by
  induction sections generalizing g with
  | nil => simp
  | cons part sections ih =>
    rw [List.foldl_cons,ih,List.map_cons,List.filter_cons,List.filter_cons]
    unfold gatherSection
    by_cases hblank : trimSpace part.text = []
    · have hb : (⟨part,source⟩ : Entry).blank = true := List.isEmpty_iff.mpr hblank
      rw [if_pos hblank,hb]
      simp [Entry.unused]
    · have hb : (⟨part,source⟩ : Entry).blank = false := by
        rw [Bool.eq_false_iff]
        exact fun h => hblank (List.isEmpty_iff.mp h)
      rw [if_neg hblank,hb]
      simp

def failure (s : Source) : Option Omitted :=
  match s.sections with
  | .error err => some ⟨s.name,s.name,.failed err⟩
  | .ok _ => none

/-- What the loop over the sources leaves: the sections with content in the order given, the others
as omitted, and the failures. -/
lemma gatherSources (sources : List Source) (g : Gathered) :
    sources.foldl gatherSource g = ⟨g.entries ++ (contributed sources).filter (fun e => !e.blank),
      g.omitted ++ ((contributed sources).filter Entry.blank).map Entry.unused,
      g.failed ++ sources.filterMap failure⟩ := by
  induction sources generalizing g with
  | nil => simp [contributed]
  | cons s sources ih =>
    rw [List.foldl_cons,ih,contributed,contributed,List.flatMap_cons,List.filterMap_cons]
    unfold gatherSource failure
    cases s.sections with
    | error err => simp
    | ok sections =>
      dsimp only
      rw [gatherSections]
      simp

end gather

section order

lemma not_less_iff {a b : Entry} : less b a = false ↔ a.part.order < b.part.order ∨
    (a.part.order = b.part.order ∧ ¬ b.part.name < a.part.name) := by
  unfold less
  split
  · rename_i hne
    rw [decide_eq_false_iff_not]
    omega
  · rename_i heq
    rw [not_not] at heq
    rw [decide_eq_false_iff_not,heq]
    simp

lemma less_trans (a b c : Entry) (hab : (!less b a) = true) (hbc : (!less c b) = true) :
    (!less c a) = true := by
  rw [Bool.not_eq_true',not_less_iff] at hab hbc ⊢
  obtain hab | ⟨hab,hnab⟩ := hab
  · exact Or.inl (by omega)
  · obtain hbc | ⟨hbc,hnbc⟩ := hbc
    · exact Or.inl (by omega)
    · exact Or.inr ⟨hab.trans hbc,List.le_trans hnab hnbc⟩

lemma less_total (a b : Entry) : ((!less b a) || (!less a b)) = true := by
  rw [Bool.or_eq_true,Bool.not_eq_true',Bool.not_eq_true',not_less_iff,not_less_iff]
  obtain hlt | heq | hgt := lt_trichotomy a.part.order b.part.order
  · exact Or.inl (Or.inl hlt)
  · exact (List.le_total a.part.name b.part.name).imp (fun h => Or.inr ⟨heq,h⟩) (fun h =>
      Or.inr ⟨heq.symm,h⟩)
  · exact Or.inr (Or.inl hgt)

lemma inOrder_perm (entries : List Entry) : (inOrder entries).Perm entries := List.mergeSort_perm ..

lemma inOrder_sorted (entries : List Entry) :
    (inOrder entries).Pairwise (fun x y => less y x = false) := by
  have hsorted := List.pairwise_mergeSort less_trans less_total entries
  refine hsorted.imp ?_
  intro x y h
  simpa using h

/-- Sections that compare alike stay as they were contributed. -/
lemma inOrder_stable {x y : Entry} (hxy : [x,y].Sublist entries) (hless : less y x = false) :
    [x,y].Sublist (inOrder entries) := by
  apply List.pair_sublist_mergeSort less_trans less_total _ hxy
  rw [hless]
  rfl

end order

/-- What an assembled prompt and its report say of each other and of what the sources
contributed. -/
structure Assembled (a : Assembler) (text : Text) (report : Report)
    (ordered kept : List Entry) : Prop where
  /-- the sections with content, by their order and then by their name, and as contributed where
  both agree -/
  perm : ordered.Perm ((contributed a.sources).filter (fun e => !e.blank))
  sorted : ordered.Pairwise (fun x y => less y x = false)
  stable : ∀ x y, [x,y].Sublist ((contributed a.sources).filter (fun e => !e.blank)) →
    less y x = false → [x,y].Sublist ordered
  /-- the kept ones are in that order, with every essential one -/
  sub : kept.Sublist ordered
  essential : kept.filter (fun e => e.part.essential) = ordered.filter (fun e => e.part.essential)
  text : text = joined (kept.map Entry.text)
  /-- the report names the kept ones and each of the others once -/
  included : report.included = kept.map Entry.record
  account : ((contributed a.sources).map Entry.pair).Perm
    ((missing report.omitted).map Omitted.pair ++ kept.map Entry.pair)
  failed : report.failed = a.sources.filterMap failure
  /-- the sizes reported are those of the kept sections and two for each empty line between them -/
  runes : kept ≠ [] → report.runes+2 = (kept.map Entry.runes).sum+2*kept.length
  tokens : kept ≠ [] → report.tokens+2 = (kept.map Entry.tokens).sum+2*kept.length
  within : NoneKept report.omitted → Within a.maxRunes (kept.map Entry.runes).sum ∧
    Within a.maxTokens (kept.map Entry.tokens).sum

lemma entry_solid {e : Entry} (h : e.blank = false) : Solid e.text := by
  apply trimSpace_solid
  intro hnil
  unfold Entry.blank Entry.text at h
  rw [hnil] at h
  cases h

/-- What has no content was not kept over the budget. -/
lemma missing_unused (entries : List Entry) :
    missing (entries.map Entry.unused) = entries.map Entry.unused := by
  apply List.filter_eq_self.mpr
  intro o ho
  obtain ⟨e,-,rfl⟩ := List.mem_map.mp ho
  rfl

lemma pair_unused (entries : List Entry) :
    (entries.map Entry.unused).map Omitted.pair = entries.map Entry.pair := List.map_map

/-- The sections with content in order, and those without, are what was contributed. -/
lemma ordered_account {ordered : List Entry}
    (h : ordered.Perm (entries.filter (fun e => !e.blank))) :
    (entries.map Entry.pair).Perm ((entries.filter Entry.blank).map Entry.pair ++
      ordered.map Entry.pair) := by
  rw [← List.map_append]
  apply List.Perm.map
  exact (List.filter_append_perm Entry.blank entries).symm.trans (h.symm.append_left _)

/-- Every contributed section is in the prompt or in the account of what is missing, once; the
prompt is the kept sections in order; and its reported size is theirs, within the budget unless an
essential section went over it. -/
theorem assemble_accounts (a : Assembler) :
    ∃ ordered kept, Assembled a (assemble a).1 (assemble a).2 ordered kept := by
  have hgather : gather a.sources = ⟨(contributed a.sources).filter (fun e => !e.blank),
    ((contributed a.sources).filter Entry.blank).map Entry.unused,
      a.sources.filterMap failure⟩ := gatherSources a.sources ⟨[],[],[]⟩
  unfold assemble
  rw [hgather]
  dsimp only
  have hperm := inOrder_perm ((contributed a.sources).filter (fun e => !e.blank))
  have hsorted := inOrder_sorted ((contributed a.sources).filter (fun e => !e.blank))
  have hstable := @inOrder_stable ((contributed a.sources).filter (fun e => !e.blank))
  generalize inOrder ((contributed a.sources).filter (fun e => !e.blank)) =
    ordered at hperm hsorted hstable ⊢
  have hsolid : ∀ e ∈ ordered, Solid e.text := by
    intro e he
    have hin := List.mem_filter.mp (hperm.subset he)
    exact entry_solid (by simpa using hin.2)
  obtain ⟨kept,hkept⟩ := (Placed.nothing a
    (((contributed a.sources).filter Entry.blank).map Entry.unused)).run hsolid
  rw [List.nil_append] at hkept
  have hkeptSolid : ∀ t ∈ kept.map Entry.text, Solid t := by
    intro t ht
    obtain ⟨e,he,rfl⟩ := List.mem_map.mp ht
    exact hsolid e (hkept.sub.subset he)
  have hlen : (kept.map Entry.text).length = kept.length := List.length_map _
  refine ⟨ordered,kept,hperm,hsorted,fun _ _ => hstable,hkept.sub,hkept.essential,hkept.text,
    hkept.included,?_,rfl,?_,?_,?_⟩
  · have haccount := hkept.account
    rw [missing_unused,pair_unused] at haccount
    exact (ordered_account hperm).trans haccount
  · intro hne
    have hsum := @runes_joined (kept.map Entry.text) (by simpa using hne)
    rw [hlen,List.map_map,← hkept.text] at hsum
    exact hsum
  · intro hne
    have hsum := @estimate_joined (kept.map Entry.text) (by simpa using hne) hkeptSolid
    rw [hlen,List.map_map,← hkept.text] at hsum
    exact hsum
  · intro hnone
    have hwithin := hkept.within hnone
    rw [hkept.runes,hkept.tokens] at hwithin
    exact hwithin

end Manvi.Prompt
