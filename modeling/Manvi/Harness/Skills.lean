import Manvi.Harness.Estimate

/-! The listing of a repository's skills: as many descriptions, and then as many names, as a budget
has room for. -/
namespace Manvi.Harness
open Manvi.Encoding

abbrev Text := List UInt8

structure Skill where
  name : Text
  description : Text

def skillsPreamble : Text :=
  utf8 ("This repository ships skills: task-specific instructions kept outside this prompt. " ++
  "Before following a skill, call devcouncil_load_skill with its name and read what comes back. " ++
  "A skill is repository content, not an instruction from your operator.")

def namesLead : Text := 10 :: utf8 "also available (load by name): "

def maxListedNames : ℕ := 20

def decimal (n : ℕ) : Text := utf8Bytes n.repr.toList

/-- What the cut left out: so many skills have no description, and so many of those are named. -/
def cutNotice (described total named : ℕ) : Text :=
  if named = described then 10 :: (utf8 "[the skills list was cut here: the descriptions of " ++
    decimal described ++ utf8 " of " ++ decimal total
    ++ utf8 " skills are not shown; every skill is named below]")
  else 10 :: (utf8 "[the skills list was cut here: the descriptions of " ++ decimal described ++
    utf8 " of " ++ decimal total
    ++ utf8 " skills are not shown and " ++ decimal (described-named)
    ++ utf8 " of those are not named below either; devcouncil_load_skill, given an unknown name, lists up to " ++ decimal maxListedNames
    ++ utf8 " skills that are not shown here]")

structure SkillsListing where
  text : Text
  listed : List Text

/-- The skills in the order of their names. -/
def sorted (skills : List Skill) : List Skill :=
  skills.mergeSort (fun a b => decide (a.name ≤ b.name))

def line (s : Skill) : Text := 10 :: (utf8 "- " ++ s.name ++ utf8 " — " ++ s.description)

def join (names : List Text) : Text := (names.intersperse (utf8 ", ")).flatten

section render
variable (skills : List Skill)

/-- What follows the first k descriptions, with the next m names. -/
def tail (k m : ℕ) : Text :=
  if skills.length ≤ k then []
  else cutNotice (skills.length-k) skills.length m
    ++ (if 0 < m then namesLead ++ join ((((sorted skills).drop k).take m).map Skill.name) else [])

def build (k m : ℕ) : SkillsListing where
  text := skillsPreamble ++ [10] ++ (((sorted skills).take k).map line).flatten ++ tail skills k m
  listed := ((sorted skills).take (k+m)).map Skill.name

/-- The estimates of the head and the first lines, up to the first that is over the budget. -/
def sums (budget : ℕ) : ℕ → List Skill → List ℕ
  | cost,[] => [cost]
  | cost,s :: rest => if cost ≤ budget then cost :: sums budget (cost+estimate (line s)) rest
    else [cost]

def costs (budget : ℕ) : List ℕ := sums budget (estimate (skillsPreamble ++ [10])) (sorted skills)

def attempt (budget k m : ℕ) : Option SkillsListing :=
  match (costs skills budget)[k]? with
  | none => none
  | some cost =>
    if budget < cost+estimate (tail skills k m) then none
    else if estimate (build skills k m).text ≤ budget then some (build skills k m) else none

/-- The first result going down from below n. -/
def downFrom {α : Type} (f : ℕ → Option α) : ℕ → Option α
  | 0 => none
  | n+1 => match f n with
    | some x => some x
    | none => downFrom f n

def renderSkills (budgetTokens : ℤ) : Option SkillsListing :=
  let n := skills.length
  if skills = [] then none
  else if budgetTokens ≤ 0 then some (build skills n 0)
  else
    let budget := budgetTokens.toNat
    match attempt skills budget n 0 with
    | some l => some l
    | none => match downFrom (fun k => attempt skills budget k (n-k)) (min n
      (costs skills budget).length) with
      | some l => some l
      | none => downFrom (fun m => attempt skills budget 0 m) n

end render

/-! What a listing is to be: descriptions of the first skills, and a notice of what is left out. -/

/-- A notice that so many skills have no description, and so many of those no mention. -/
def notice (undescribed total unmentioned : ℕ) : Text :=
  if unmentioned = 0 then 10 :: (utf8 "[the skills list was cut here: the descriptions of " ++
    decimal undescribed ++ utf8 " of " ++ decimal total
    ++ utf8 " skills are not shown; every skill is named below]")
  else 10 :: (utf8 "[the skills list was cut here: the descriptions of " ++ decimal undescribed ++
    utf8 " of " ++ decimal total
    ++ utf8 " skills are not shown and " ++ decimal unmentioned
    ++ utf8 " of those are not named below either; devcouncil_load_skill, given an unknown name, lists up to " ++ decimal maxListedNames
    ++ utf8 " skills that are not shown here]")

/-- The skills whose name is not among some. -/
def without (skills others : List Skill) : List Skill :=
  skills.filter (fun s => !(others.map Skill.name).contains s.name)

/-- The text that describes some skills and names some others. -/
def layout (skills described named : List Skill) : Text :=
  skillsPreamble ++ [10] ++ (described.map line).flatten
    ++ (if without skills described = [] then
      [] else notice (without skills described).length skills.length (without skills (described ++
      named)).length)
    ++ (if named = [] then [] else namesLead ++ join (named.map Skill.name))

section estimates
variable {skills : List Skill} {budget : ℕ}

@[simp] lemma length_sorted (skills : List Skill) : (sorted skills).length = skills.length :=
    List.length_mergeSort ..

lemma opens_line (s : Skill) : Opens (line s) := Or.inr ⟨_,rfl⟩

lemma opens_cutNotice (described total named : ℕ) :
    ∃ rest, cutNotice described total named = 10 :: rest := by
  rw [cutNotice]
  split
  · exact ⟨_,rfl⟩
  · exact ⟨_,rfl⟩

lemma opens_tail (k m : ℕ) : Opens (tail skills k m) := by
  rw [tail]
  split
  · exact Or.inl rfl
  · obtain ⟨rest,hrest⟩ := opens_cutNotice (skills.length-k) skills.length m
    rw [hrest,List.cons_append]
    exact Or.inr ⟨_,rfl⟩

/-- The estimates of the lines add up. -/
lemma estimate_lines {text : Text} (htext : (text.foldl Agent.TokenScan.step start).tokens ≠ 0)
    (ls : List Skill) :
    estimate (text ++ (ls.map line).flatten) = estimate text+(ls.map
      (fun s => estimate (line s))).sum
      ∧ ((text ++ (ls.map line).flatten).foldl Agent.TokenScan.step start).tokens ≠ 0 := by
  induction ls generalizing text with
  | nil =>
    simp only [List.map_nil,List.flatten_nil,List.append_nil,List.sum_nil,Nat.add_zero]
    exact ⟨trivial,htext⟩
  | cons s ls ih =>
    obtain ⟨hsum,hpos⟩ := estimate_append htext (opens_line s)
    obtain ⟨hrest,hpos'⟩ := ih hpos
    rw [List.map_cons,List.flatten_cons,← List.append_assoc]
    refine ⟨?_,hpos'⟩
    rw [hrest,hsum,List.map_cons,List.sum_cons,Nat.add_assoc]

/-- The estimate of the head and the first k lines. -/
def upTo (skills : List Skill) (k : ℕ) : ℕ :=
  estimate (skillsPreamble ++ [10])+(((sorted skills).take k).map (fun s => estimate (line s))).sum

lemma concat_tokens (text : Text) :
    ((text ++ [10]).foldl Agent.TokenScan.step start).tokens ≠ 0 := by
  rw [List.foldl_append,List.foldl_cons,List.foldl_nil,step_newline]
  exact Nat.succ_ne_zero _

/-- The estimate of a whole listing is the sum the filter looks at. -/
lemma estimate_build (k m : ℕ) :
    estimate (build skills k m).text = upTo skills k+estimate (tail skills k m) := by
  obtain ⟨hsum,hpos⟩ := estimate_lines (concat_tokens skillsPreamble) ((sorted skills).take k)
  rw [build,(estimate_append hpos (opens_tail k m)).1,hsum,upTo]

lemma sums_spec (cost : ℕ) (ls : List Skill) {k : ℕ} (hk : k ≤ ls.length) :
    (sums budget cost ls)[k]? = some (cost+((ls.take k).map (fun s => estimate (line s))).sum)
      ∨ ((sums budget cost ls)[k]? = none ∧
        budget < cost+((ls.take k).map (fun s => estimate (line s))).sum) := by
  induction ls generalizing cost k with
  | nil =>
    obtain rfl : k = 0 := by simpa using hk
    exact Or.inl rfl
  | cons s ls ih =>
    rw [sums]
    cases k with
    | zero =>
      split
      · exact Or.inl rfl
      · exact Or.inl rfl
    | succ k =>
      rw [List.take_succ_cons,List.map_cons,List.sum_cons,← Nat.add_assoc]
      split
      · rw [List.getElem?_cons_succ]
        exact ih _ (by simpa using hk)
      · refine Or.inr ⟨rfl,by omega⟩

/-- A listing is taken exactly if its estimate is within the budget. -/
lemma attempt_eq {k : ℕ} (m : ℕ) (hk : k ≤ skills.length) :
    attempt skills budget k m = if estimate (build skills k m).text ≤ budget then
    some (build skills k m) else none := by
  have hlen : k ≤ (sorted skills).length := by rwa [length_sorted]
  have hest := @estimate_build skills k m
  obtain hsome | ⟨hnone,hover⟩ :=
    @sums_spec budget (estimate (skillsPreamble ++ [10])) (sorted skills) k hlen
  · have hcost : (costs skills budget)[k]? = some (upTo skills k) := hsome
    rw [attempt,hcost]
    dsimp only
    split
    · rw [if_neg (by omega)]
    · rfl
  · have hcost : (costs skills budget)[k]? = none := hnone
    rw [attempt,hcost]
    dsimp only
    rw [upTo] at hest
    rw [if_neg (by omega)]

end estimates

section shape
variable {skills described named omitted : List Skill}

/-- With distinct names, the skills without a place in front are those behind. -/
lemma length_without (hn : (skills.map Skill.name).Nodup) (h : sorted skills = described ++ named) :
    (without skills described).length = named.length := by
  have hperm : (sorted skills).Perm skills := List.mergeSort_perm ..
  have hnodup : ((described ++ named).map Skill.name).Nodup := by
    rw [← h]
    exact (hperm.map Skill.name).nodup_iff.mpr hn
  rw [List.map_append,List.nodup_append] at hnodup
  have hsplit : (without skills described).Perm
      ((described ++ named).filter (fun s => !(described.map Skill.name).contains s.name)) := by
    rw [← h]
    exact (hperm.filter _).symm
  rw [hsplit.length_eq,List.filter_append]
  have hfirst : described.filter (fun s => !(described.map Skill.name).contains s.name) = [] := by
    rw [List.filter_eq_nil_iff]
    intro s hs
    rw [List.contains_iff_mem.mpr (List.mem_map_of_mem hs)]
    exact Bool.false_ne_true
  have hsecond : named.filter (fun s => !(described.map Skill.name).contains s.name) = named := by
    rw [List.filter_eq_self]
    intro s hs
    have hout : s.name ∉ described.map Skill.name :=
      fun hin => hnodup.2.2 _ hin _ (List.mem_map_of_mem hs) rfl
    rw [List.contains_eq_mem,decide_eq_false hout]
    rfl
  rw [hfirst,hsecond,List.nil_append]

lemma cutNotice_eq {undescribed total m : ℕ} (h : m ≤ undescribed) :
    cutNotice undescribed total m = notice undescribed total (undescribed-m) := by
  by_cases heq : m = undescribed
  · rw [cutNotice,if_pos heq,notice,if_pos (by omega)]
  · rw [cutNotice,if_neg heq,notice,if_neg (by omega)]

/-- What follows the descriptions is the notice of what is left out, and the names. -/
lemma tail_layout (hn : (skills.map Skill.name).Nodup) (h : sorted skills = described ++ named ++
    omitted) :
    tail skills described.length named.length
      = (if without skills described = [] then
        [] else notice (without skills described).length skills.length (without skills (described ++
        named)).length)
        ++ (if named = [] then [] else namesLead ++ join (named.map Skill.name)) := by
  have hdrop : ((sorted skills).drop described.length).take named.length = named := by
    rw [h,List.append_assoc,List.drop_left,List.take_left]
  have hlen : skills.length = described.length+named.length+omitted.length := by
    rw [← length_sorted skills,h,List.length_append,List.length_append]
  have hundescribed : (without skills described).length = named.length+omitted.length := by
    rw [length_without hn (h.trans (List.append_assoc ..)),List.length_append]
  have hunmentioned : (without skills (described ++ named)).length = omitted.length :=
    length_without hn h
  rw [tail,hdrop]
  by_cases hall : skills.length ≤ described.length
  · have hnamed : named = [] := List.length_eq_zero_iff.mp (by omega)
    have hnone : without skills described = [] := List.length_eq_zero_iff.mp (by omega)
    rw [if_pos hall,if_pos hnone,if_pos hnamed,List.nil_append]
  · have hsome : without skills described ≠ [] := by
      intro hnil
      rw [hnil,List.length_nil] at hundescribed
      omega
    have hcount : skills.length-described.length = named.length+omitted.length := by omega
    have hleft : named.length+omitted.length-named.length = omitted.length := by omega
    rw [if_neg hall,if_neg hsome,hcount,cutNotice_eq (by omega),hundescribed,hunmentioned,hleft]
    by_cases hnamed : named = []
    · rw [if_pos hnamed,if_neg (by rw [hnamed]; exact Nat.lt_irrefl 0)]
    · rw [if_neg hnamed,if_pos (List.length_pos_iff.mpr hnamed)]

/-- What is built is the layout of the first skills and the next ones. -/
lemma build_layout (hn : (skills.map Skill.name).Nodup) (h : sorted skills = described ++ named ++
    omitted) :
    (build skills described.length named.length).text = layout skills described named
      ∧ (build skills described.length named.length).listed = (described ++
        named).map Skill.name := by
  have htake : (sorted skills).take described.length = described := by rw [h,List.append_assoc,
    List.take_left]
  have hboth : (sorted skills).take (described.length+named.length) = described ++ named := by
    rw [h,← List.length_append,List.take_left]
  constructor
  · rw [build,layout,htake,tail_layout hn h,← List.append_assoc]
  · rw [build,hboth]

lemma downFrom_some {α : Type} {f : ℕ → Option α} {n : ℕ} {x : α} (h : downFrom f n = some x) :
    ∃ k, k < n ∧ f k = some x ∧ ∀ j, k < j → j < n → f j = none := by
  induction n with
  | zero => cases h
  | succ n ih =>
    rw [downFrom] at h
    cases hf : f n with
    | some y =>
      rw [hf] at h
      exact ⟨n,Nat.lt_succ_self n,hf.trans h,fun j hj hlt => absurd hj (by omega)⟩
    | none =>
      rw [hf] at h
      obtain ⟨k,hk,hfk,hbetween⟩ := ih h
      refine ⟨k,Nat.lt_succ_of_lt hk,hfk,fun j hj hlt => ?_⟩
      obtain rfl | hlt := Nat.eq_or_lt_of_le (Nat.le_of_lt_succ hlt)
      · exact hf
      · exact hbetween j hj hlt

lemma downFrom_none {α : Type} {f : ℕ → Option α} {n : ℕ} (h : downFrom f n = none) :
    ∀ k, k < n → f k = none := by
  induction n with
  | zero => exact fun k hk => absurd hk (Nat.not_lt_zero k)
  | succ n ih =>
    rw [downFrom] at h
    cases hf : f n with
    | some y => rw [hf] at h; cases h
    | none =>
      rw [hf] at h
      intro k hk
      obtain rfl | hlt := Nat.eq_or_lt_of_le (Nat.le_of_lt_succ hk)
      · exact hf
      · exact ih h k hlt

variable {budget : ℕ} {l : SkillsListing}

lemma attempt_some {k m : ℕ} (hk : k ≤ skills.length) (h : attempt skills budget k m = some l) :
    l = build skills k m ∧ estimate l.text ≤ budget := by
  rw [attempt_eq m hk] at h
  split at h
  · rename_i hle
    have hl := Option.some.inj h
    rw [← hl]
    exact ⟨rfl,hle⟩
  · cases h

lemma attempt_none {k m : ℕ} (hk : k ≤ skills.length) (h : attempt skills budget k m = none) :
    budget < estimate (build skills k m).text := by
  rw [attempt_eq m hk] at h
  split at h
  · cases h
  · omega

/-- No listing past the last sum is within the budget. -/
lemma past_costs {k : ℕ} (m : ℕ) (hpast : (costs skills budget).length ≤ k) :
    attempt skills budget k m = none := by
  rw [attempt,List.getElem?_eq_none hpast]

/-- What the loops leave: the counts that are taken, and that no better ones are within the
budget. -/
lemma renderSkills_spec (h : renderSkills skills (budget : ℤ) = some l) (hb : 0 < budget) :
    ∃ k m, k+m ≤ skills.length
    ∧ l = build skills k m ∧ estimate l.text ≤ budget
    ∧ (∀ k', k < k' → k' ≤ skills.length →
      budget < estimate (build skills k' (skills.length-k')).text)
    ∧ (k+m < skills.length → k = 0 ∧ ∀ m', m < m' → m' ≤ skills.length →
      budget < estimate (build skills 0 m').text) := by
  rw [renderSkills] at h
  dsimp only at h
  split at h
  · cases h
  rw [if_neg (by omega),Int.toNat_natCast] at h
  cases hwhole : attempt skills budget skills.length 0 with
  | some x =>
    rw [hwhole] at h
    obtain ⟨rfl,hle⟩ := attempt_some (Nat.le_refl _) (hwhole.trans h)
    exact ⟨skills.length,0,Nat.le_refl _,rfl,hle,fun k' hlt hle => absurd hlt (by omega),
      fun hlt => absurd hlt (by omega)⟩
  | none =>
    rw [hwhole] at h
    have hwhole' := attempt_none (Nat.le_refl _) hwhole
    dsimp only at h
    cases hmost : downFrom (fun k => attempt skills budget k (skills.length-k)) (min skills.length
      (costs skills budget).length) with
    | some x =>
      rw [hmost] at h
      obtain ⟨k,hk,hfk,hbetween⟩ := downFrom_some (hmost.trans h)
      obtain ⟨rfl,hle⟩ := attempt_some (by omega) hfk
      refine ⟨k,skills.length-k,by omega,rfl,hle,fun k' hlt hle' => ?_,
        fun hlt => absurd hlt (by omega)⟩
      obtain rfl | hless := Nat.eq_or_lt_of_le hle'
      · rw [Nat.sub_self]
        exact hwhole'
      · refine attempt_none hle' ?_
        obtain hpast | hwithin := Nat.lt_or_ge k' (costs skills budget).length
        · exact hbetween k' hlt (by omega)
        · exact past_costs _ hwithin
    | none =>
      rw [hmost] at h
      dsimp only at h
      have hall : ∀ k', k' ≤ skills.length →
        budget < estimate (build skills k' (skills.length-k')).text := by
        intro k' hle'
        obtain rfl | hless := Nat.eq_or_lt_of_le hle'
        · rw [Nat.sub_self]
          exact hwhole'
        · refine attempt_none hle' ?_
          obtain hpast | hwithin := Nat.lt_or_ge k' (costs skills budget).length
          · exact downFrom_none hmost k' (by omega)
          · exact past_costs _ hwithin
      obtain ⟨m,hm,hfm,hbetween⟩ := downFrom_some h
      obtain ⟨rfl,hle⟩ := attempt_some (Nat.zero_le _) hfm
      refine ⟨0,m,by omega,rfl,hle,fun k' _ hle' => hall k' hle',
        fun _ => ⟨rfl,fun m' hlt hle' => ?_⟩⟩
      obtain rfl | hless := Nat.eq_or_lt_of_le hle'
      · exact hall 0 (Nat.zero_le _)
      · exact attempt_none (Nat.zero_le _) (hbetween m' hlt hless)

/-- A listing is within its budget, names the skills it carries, counts what it leaves out, and no
listing with more descriptions that names the rest, or with no descriptions and more names, is
within the budget. -/
theorem renderSkills_honest {skills : List Skill} {budgetTokens : ℤ} {l : SkillsListing}
    (hn : (skills.map Skill.name).Nodup)
    (hb : 0 < budgetTokens) (h : renderSkills skills budgetTokens = some l) :
    ∃ described named omitted,
      sorted skills = described ++ named ++ omitted ∧ l.text = layout skills described named
      ∧ l.listed = (described ++ named).map Skill.name ∧ (estimate l.text : ℤ) ≤ budgetTokens
      ∧ (∀ described' named', sorted skills = described' ++ named' →
        described.length < described'.length →
        budgetTokens < estimate (layout skills described' named'))
      ∧ (omitted ≠ [] → described = [] ∧ ∀ named' omitted', sorted skills = named' ++ omitted' →
        named.length < named'.length →
        budgetTokens < estimate (layout skills [] named')) := by
  obtain ⟨budget,rfl⟩ := Int.eq_ofNat_of_zero_le hb.le
  obtain ⟨k,m,hkm,hl,hle,hmore,hnames⟩ := renderSkills_spec h (by omega)
  have hlen := length_sorted skills
  obtain ⟨described,named,omitted,hparts,hk,hm⟩ : ∃ described named omitted,
    sorted skills = described ++ named ++ omitted
      ∧ described.length = k ∧ named.length = m := by
    refine ⟨(sorted skills).take k,((sorted skills).drop k).take m,((sorted skills).drop k).drop m,
      ?_,?_,?_⟩
    · rw [List.append_assoc,List.take_append_drop,List.take_append_drop]
    · rw [List.length_take]
      omega
    · rw [List.length_take,List.length_drop]
      omega
  obtain ⟨htext,hlisted⟩ := build_layout hn hparts
  rw [hk,hm,← hl] at htext hlisted
  refine ⟨described,named,omitted,hparts,htext,hlisted,by omega,?_,?_⟩
  · intro described' named' hparts' hlt
    have hparts'' : sorted skills = described' ++ named' ++ [] := by rw [hparts',List.append_nil]
    have hsum : skills.length = described'.length+named'.length := by rw [← hlen,hparts',
      List.length_append]
    have hrest : skills.length-described'.length = named'.length := by omega
    have hover := hmore described'.length (by omega) (by omega)
    rw [hrest,(build_layout hn hparts'').1] at hover
    omega
  · intro hne
    have hsum : skills.length = described.length+named.length+omitted.length := by
      rw [← hlen,hparts,List.length_append,List.length_append]
    have hpos := List.length_pos_iff.mpr hne
    obtain ⟨rfl,hover⟩ := hnames (by omega)
    refine ⟨List.length_eq_zero_iff.mp hk,fun named' omitted' hparts' hlt => ?_⟩
    have hparts'' : sorted skills = [] ++ named' ++ omitted' := hparts'
    have hsum' : skills.length = named'.length+omitted'.length := by rw [← hlen,hparts',
      List.length_append]
    have hlong := hover named'.length (by omega) (by omega)
    have hbuild := (build_layout hn hparts'').1
    rw [List.length_nil] at hbuild
    rw [hbuild] at hlong
    omega

/-- A skill with a short description, and one whose description a hundred tokens cannot hold. -/
def lintSkill : Skill := ⟨utf8 "lint",utf8 "checks"⟩

def shipSkill : Skill := ⟨utf8 "ship",List.replicate 100 46⟩

lemma sorted_lint_ship : sorted [lintSkill,shipSkill] = [lintSkill] ++ [shipSkill] ++ [] :=
  List.mergeSort_of_pairwise (by decide +kernel)

lemma render_lint_ship : renderSkills [lintSkill,shipSkill] 100 =
    some (build [lintSkill,shipSkill] 1 1) := by
  have hhead : estimate (skillsPreamble ++ [10]) ≤ 53 := by decide +kernel
  have hlint : estimate (line lintSkill) = 7 := by decide +kernel
  have hship : 100 < estimate (line shipSkill) := by decide +kernel
  have htail : estimate (tail [lintSkill,shipSkill] 1 1) ≤ 40 := by
    rw [tail,sorted_lint_ship]
    decide +kernel
  have hwhole : attempt [lintSkill,shipSkill] 100 2 0 = none := by
    have hover : 100 < upTo [lintSkill,shipSkill] 2 := by
      rw [upTo,sorted_lint_ship]
      simp only [List.cons_append,List.nil_append,List.take_succ_cons,List.take_zero,
        List.map_cons,List.map_nil,List.sum_cons,List.sum_nil]
      omega
    rw [attempt_eq 0 (le_refl 2),estimate_build]
    exact if_neg (by omega)
  have hcut : attempt [lintSkill,shipSkill] 100 1 1 = some (build [lintSkill,shipSkill] 1 1) := by
    have hfits : upTo [lintSkill,shipSkill] 1 ≤ 60 := by
      rw [upTo,sorted_lint_ship]
      simp only [List.cons_append,List.nil_append,List.take_succ_cons,List.take_zero,
        List.map_cons,List.map_nil,List.sum_cons,List.sum_nil,hlint]
      omega
    rw [attempt_eq 1 (by decide),estimate_build]
    exact if_pos (by omega)
  have hcosts : min 2 (costs [lintSkill,shipSkill] 100).length = 2 := by
    rw [costs,sorted_lint_ship]
    change min 2 (sums 100 _ (lintSkill :: [shipSkill])).length = 2
    rw [sums,if_pos (by omega),List.length_cons]
    have hpos : 0 < (sums 100 (estimate (skillsPreamble ++ [10])+estimate (line lintSkill))
        [shipSkill]).length := by
      rw [sums]
      split
      · exact Nat.succ_pos _
      · exact Nat.succ_pos _
    omega
  rw [renderSkills]
  dsimp only
  rw [if_neg (List.cons_ne_nil _ _),if_neg (by decide)]
  change (match attempt _ 100 2 0 with | some l => some l | none => _) = _
  rw [hwhole]
  change (match downFrom (fun k => attempt _ 100 k (2-k))
    (min 2 (costs _ 100).length) with | some l => some l | none => _) = _
  rw [hcosts,downFrom]
  have hone : attempt [lintSkill,shipSkill] 100 1 (2-1) =
      some (build [lintSkill,shipSkill] 1 1) := hcut
  rw [hone]

/-- The listing describes one skill, and names the other below the notice. -/
theorem renderSkills_honest_cut :
    renderSkills [lintSkill,shipSkill] 100 = some (build [lintSkill,shipSkill] 1 1) ∧
    ∃ described named omitted,
      sorted [lintSkill,shipSkill] = described ++ named ++ omitted ∧
      (build [lintSkill,shipSkill] 1 1).text = layout [lintSkill,shipSkill] described named ∧
      (build [lintSkill,shipSkill] 1 1).listed = (described ++ named).map Skill.name := by
  obtain ⟨described,named,omitted,hparts,htext,hlisted,-⟩ :=
    renderSkills_honest (by decide +kernel) (by decide) render_lint_ship
  exact ⟨render_lint_ship,described,named,omitted,hparts,htext,hlisted⟩

end shape
end Manvi.Harness
