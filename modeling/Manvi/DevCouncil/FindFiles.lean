import Mathlib

/-! Finding files by a pattern: the paths that it accepts, whole or by their last component, and
whether there were more. -/
namespace Manvi.DevCouncil

/-- What a shell pattern is made of. -/
inductive GlobUnit where
  | star
  | any
  | set (stuff : List Char)
  | lit (c : Char)
  deriving Repr, DecidableEq

/-- What stands between a bracket and the one that closes it, and what follows. One that comes
first, or right behind the mark of a negated set, does not close it. -/
def bracketed (s : List Char) : Option (List Char × List Char) :=
  let negated := s.head? = some '!'
  let s₁ := if negated then s.tail else s
  let leads := s₁.head? = some ']'
  let s₂ := if leads then s₁.tail else s₁
  match s₂.dropWhile (· ≠ ']') with
  | [] => none
  | _ :: rest => some ((if negated then ['!'] else []) ++ (if leads then [']'] else []) ++
    s₂.takeWhile (· ≠ ']'),rest)

/-- The units of a pattern, for so many of them. A bracket that is never closed stands for
itself. -/
def globUnits : ℕ → List Char → List GlobUnit
  | 0,_ => []
  | _+1,[] => []
  | fuel+1,c :: s =>
    if c = '*' then .star :: globUnits fuel s
    else if c = '?' then .any :: globUnits fuel s
    else if c = '[' then match bracketed s with
      | none => .lit c :: globUnits fuel s
      | some (stuff,rest) => .set stuff :: globUnits fuel rest
    else .lit c :: globUnits fuel s

section search
variable (inSet : List Char → Char → Bool)

/-- Whether a name is what the units say, where a set holds the characters that it is told to
hold. -/
def globMatches : List GlobUnit → List Char → Bool
  | [],name => name.isEmpty
  | .star :: us,name => name.tails.any (globMatches us)
  | .any :: us,name => match name with
    | [] => false
    | _ :: rest => globMatches us rest
  | .set stuff :: us,name => match name with
    | [] => false
    | c :: rest => inSet stuff c && globMatches us rest
  | .lit d :: us,name => match name with
    | [] => false
    | c :: rest => c = d && globMatches us rest

/-- Shell matching as Python's fnmatchcase has it: a star crosses a slash, and the whole name is
matched. -/
def fnmatchcase (pattern name : List Char) : Bool :=
  globMatches inSet (globUnits pattern.length pattern) name

variable (fnmatch : List Char → List Char → Bool)

/-- A slash that comes before any bracket. -/
def slashBeforeFirstBracket (pattern : List Char) : Bool :=
  (pattern.takeWhile (· ≠ '[')).contains '/'

def lastComponent (path : List Char) : List Char := (path.reverse.takeWhile (· ≠ '/')).reverse

/-- The loop over the paths, with those that matched. -/
def matchLoop (pattern : List Char) (limit : ℕ) : List (List Char) → List (List Char) →
    List (List Char) × Bool
  | [],found => (found,false)
  | path :: paths,found =>
    if limit ≤ found.length then (found,true)
    else if fnmatch pattern path then matchLoop pattern limit paths (found ++ [path])
    else if slashBeforeFirstBracket pattern then matchLoop pattern limit paths found
    else if path.contains '/' && fnmatch pattern (lastComponent path) then
      matchLoop pattern limit paths (found ++ [path])
    else matchLoop pattern limit paths found

def matchCandidates (pattern : List Char) (paths : List (List Char)) (limit : ℕ) :
    List (List Char) × Bool :=
  matchLoop fnmatch pattern limit paths []

/-- The plain rule: a path is accepted whole or by its last component. -/
def accepts (pattern path : List Char) : Bool :=
  fnmatch pattern path || fnmatch pattern (lastComponent path)

/-- The first paths that are accepted, up to the limit, and whether more than these are. -/
def FindsExactly (pattern : List Char) (paths : List (List Char)) (limit : ℕ) : Prop :=
  matchCandidates fnmatch pattern paths limit
    = ((paths.filter (accepts fnmatch pattern)).take limit,
      decide (limit < (paths.filter (accepts fnmatch pattern)).length))

end search

section slash
variable {inSet : List Char → Char → Bool} {fnmatch : List Char → List Char → Bool}

/-- A literal of a pattern stands in every name it matches. -/
lemma lit_mem_of_matches {us : List GlobUnit} {name : List Char} {d : Char}
    (h : globMatches inSet us name = true) (hd : .lit d ∈ us) :
    d ∈ name := by
  induction us generalizing name with
  | nil => cases hd
  | cons u us ih =>
    cases u with
    | star =>
      have hd' : GlobUnit.lit d ∈ us := by simpa using hd
      rw [globMatches,List.any_eq_true] at h
      obtain ⟨t,ht,hmatch⟩ := h
      exact ((List.mem_tails _ _).mp ht).subset (ih hmatch hd')
    | any =>
      have hd' : GlobUnit.lit d ∈ us := by simpa using hd
      cases name with
      | nil => cases h
      | cons c rest => exact List.mem_cons_of_mem _ (ih h hd')
    | set stuff =>
      have hd' : GlobUnit.lit d ∈ us := by simpa using hd
      cases name with
      | nil => cases h
      | cons c rest =>
        rw [globMatches,Bool.and_eq_true] at h
        exact List.mem_cons_of_mem _ (ih h.2 hd')
    | lit e =>
      cases name with
      | nil => cases h
      | cons c rest =>
        rw [globMatches,Bool.and_eq_true,decide_eq_true_eq] at h
        obtain heq | hd' := List.mem_cons.mp hd
        · cases heq
          rw [h.1]
          exact List.mem_cons_self
        · exact List.mem_cons_of_mem _ (ih h.2 hd')

/-- A slash before any bracket is a literal of the pattern. -/
lemma slash_mem_units {pattern : List Char} {fuel : ℕ} (hfuel : pattern.length ≤ fuel)
    (h : slashBeforeFirstBracket pattern = true) :
    GlobUnit.lit '/' ∈ globUnits fuel pattern := by
  induction pattern generalizing fuel with
  | nil => cases h
  | cons c s ih =>
    cases fuel with
    | zero => cases hfuel
    | succ fuel =>
      have hbracket : c ≠ '[' := by
        rintro rfl
        exact absurd h (by simp [slashBeforeFirstBracket])
      have hrest : c = '/' ∨ slashBeforeFirstBracket s = true := by
        rw [slashBeforeFirstBracket,List.takeWhile_cons_of_pos (by simpa using hbracket)] at h
        simp only [List.contains_cons,Bool.or_eq_true,beq_iff_eq] at h
        exact h.imp Eq.symm id
      have hlen : s.length ≤ fuel := Nat.le_of_succ_le_succ hfuel
      unfold globUnits
      by_cases hstar : c = '*'
      · rw [if_pos hstar]
        exact List.mem_cons_of_mem _ (ih hlen (hrest.resolve_left (by rw [hstar]; decide)))
      · rw [if_neg hstar]
        by_cases hany : c = '?'
        · rw [if_pos hany]
          exact List.mem_cons_of_mem _ (ih hlen (hrest.resolve_left (by rw [hany]; decide)))
        · rw [if_neg hany,if_neg hbracket]
          obtain hslash | hs := hrest
          · rw [hslash]
            exact List.mem_cons_self
          · exact List.mem_cons_of_mem _ (ih hlen hs)

lemma slash_not_mem_lastComponent (path : List Char) : '/' ∉ lastComponent path := by
  intro h
  rw [lastComponent,List.mem_reverse] at h
  have := List.mem_takeWhile_imp h
  simp at this

lemma lastComponent_of_no_slash {path : List Char} (h : '/' ∉ path) :
    lastComponent path = path := by
  have hall : path.reverse.takeWhile (· ≠ '/') = path.reverse := by
    refine List.takeWhile_eq_self_iff.mpr (fun c hc => ?_)
    have hne : c ≠ '/' := fun he => h (he ▸ List.mem_reverse.mp hc)
    simpa using hne
  rw [lastComponent,hall,List.reverse_reverse]

/-- What the loop skips cannot match. -/
lemma accepts_eq (hmatch : ∀ p n, fnmatch p n = fnmatchcase inSet p n) (pattern path : List Char) :
    accepts fnmatch pattern path
    = (fnmatch pattern path || !slashBeforeFirstBracket pattern &&
      (path.contains '/' && fnmatch pattern (lastComponent path))) := by
  unfold accepts
  by_cases hpath : '/' ∈ path
  · by_cases hslash : slashBeforeFirstBracket pattern = true
    · have hbase : fnmatch pattern (lastComponent path) = false := by
        rw [Bool.eq_false_iff,hmatch]
        exact fun h => slash_not_mem_lastComponent path (lit_mem_of_matches h
          (slash_mem_units le_rfl hslash))
      rw [hbase,hslash]
      simp
    · rw [Bool.not_eq_true] at hslash
      simp [hslash,hpath]
  · rw [lastComponent_of_no_slash hpath]
    simp [hpath]

end slash

section loop
variable {inSet : List Char → Char → Bool} {fnmatch : List Char → List Char → Bool}
    {pattern : List Char} {limit : ℕ}

/-- One path, taken when it is accepted. -/
lemma matchLoop_cons (hmatch : ∀ p n, fnmatch p n = fnmatchcase inSet p n) (path : List Char)
    (paths found : List (List Char)) :
    matchLoop fnmatch pattern limit (path :: paths) found = if limit ≤ found.length then
    (found,true)
      else matchLoop fnmatch pattern limit paths (if accepts fnmatch pattern path then found ++
        [path] else found) := by
  rw [accepts_eq hmatch,matchLoop]
  cases fnmatch pattern path with
  | true => simp
  | false =>
    cases slashBeforeFirstBracket pattern with
    | true => simp
    | false =>
      cases path.contains '/' && fnmatch pattern (lastComponent path) with
      | true => simp
      | false => simp

/-- The loop stops at the limit, and tells so when a path is left, whatever that is. -/
lemma matchLoop_eq (hmatch : ∀ p n, fnmatch p n = fnmatchcase inSet p n)
    {paths found : List (List Char)} (hfound : found.length ≤ limit) :
    matchLoop fnmatch pattern limit paths found = (found ++
      (paths.filter (accepts fnmatch pattern)).take (limit-found.length),
      decide (paths ≠ [] ∧ limit ≤
        found.length+(paths.dropLast.filter (accepts fnmatch pattern)).length)) := by
  induction paths generalizing found with
  | nil => simp [matchLoop]
  | cons path paths ih =>
    rw [matchLoop_cons hmatch]
    by_cases hfull : limit ≤ found.length
    · have hzero : limit-found.length = 0 := by omega
      rw [if_pos hfull,hzero,List.take_zero,List.append_nil]
      simp only [ne_eq,List.cons_ne_nil,not_false_eq_true,true_and]
      rw [decide_eq_true (by omega)]
    · rw [if_neg hfull]
      cases hacc : accepts fnmatch pattern path with
      | true =>
        obtain ⟨k,hk⟩ : ∃ k, limit-found.length = k+1 := ⟨limit-found.length-1,by omega⟩
        have hk' : limit-(found ++ [path]).length = k := by
          rw [List.length_append,List.length_singleton]
          omega
        rw [if_pos rfl,ih (by rw [List.length_append,List.length_singleton]; omega),
          List.filter_cons_of_pos hacc,hk,hk',List.take_succ_cons,
          List.append_assoc,List.singleton_append]
        refine Prod.ext rfl ?_
        dsimp only
        rw [decide_eq_decide]
        cases paths with
        | nil => simp; omega
        | cons p ps =>
          rw [List.dropLast_cons_cons,List.filter_cons_of_pos hacc]
          simp only [List.length_append,List.length_cons,List.length_nil,ne_eq,List.cons_ne_nil,
            not_false_eq_true,true_and]
          omega
      | false =>
        rw [if_neg (by decide),ih hfound,List.filter_cons_of_neg (by rw [hacc]; decide)]
        refine Prod.ext rfl ?_
        dsimp only
        rw [decide_eq_decide]
        cases paths with
        | nil => simp; omega
        | cons p ps =>
          rw [List.dropLast_cons_cons,List.filter_cons_of_neg (by rw [hacc]; decide)]
          simp

end loop

/-- The search is the plain rule and tells exactly whether there was more, but where as many paths
are accepted as the limit allows and the last path of the list is not among them. -/
theorem findsExactly_iff (inSet : List Char → Char → Bool) (fnmatch : List Char → List Char → Bool)
    (hmatch : ∀ p n, fnmatch p n = fnmatchcase inSet p n) (pattern : List Char)
    (paths : List (List Char)) (limit : ℕ) (hlimit : 0 < limit) :
    FindsExactly fnmatch pattern paths limit
      ↔ (paths.filter (accepts fnmatch pattern)).length ≠ limit ∨ ∃ last ∈ paths.getLast?,
      accepts fnmatch pattern last = true := by
  unfold FindsExactly matchCandidates
  rw [matchLoop_eq hmatch (Nat.zero_le _),List.nil_append,List.length_nil,Nat.sub_zero,Nat.zero_add,
    Prod.mk.injEq,decide_eq_decide]
  simp only [true_and]
  rcases List.eq_nil_or_concat paths with rfl | ⟨front,last,rfl⟩
  · simp
    omega
  · rw [List.concat_eq_append,List.dropLast_concat,List.filter_append,List.length_append,
      List.getLast?_concat]
    simp only [ne_eq,List.append_eq_nil_iff,List.cons_ne_nil,and_false,not_false_eq_true,true_and,
      Option.mem_def,Option.some.injEq,
      exists_eq_left']
    cases hacc : accepts fnmatch pattern last with
    | true =>
      rw [List.filter_cons_of_pos hacc]
      simp only [List.filter_nil,List.length_cons,List.length_nil,or_true,iff_true]
      omega
    | false =>
      rw [List.filter_cons_of_neg (by rw [hacc]; decide)]
      simp only [List.filter_nil,List.length_nil,Bool.false_eq_true,or_false]
      omega

/-- A set that holds the characters written in it. -/
def plainSet (stuff : List Char) (c : Char) : Bool := stuff.contains c

/-- Two files match, and the search for one tells that there is more. -/
theorem findsExactly_more :
    FindsExactly (fnmatchcase plainSet) "*.go".toList ["src/a.go".toList,"b.go".toList,
      "c".toList] 1 :=
  (findsExactly_iff plainSet _ (fun _ _ => rfl) _ _ 1 (by decide)).mpr (.inl (by decide +kernel))

/-- One file matches and another does not. The search for one tells that there is more. -/
theorem not_findsExactly_last :
    ¬ FindsExactly (fnmatchcase plainSet) "a".toList ["a".toList,"b".toList] 1 := by
  unfold FindsExactly
  decide +kernel

end Manvi.DevCouncil
