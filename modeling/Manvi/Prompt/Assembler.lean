import Manvi.Harness.Skills
import Manvi.Encoding.Space

/-! The system prompt: named sections in order, under a budget, with an account of what became of
each. -/
namespace Manvi.Prompt
open Manvi.Encoding Manvi.Harness Manvi.Agent

structure Section where
  name : Text
  order : ℤ
  text : Text
  essential : Bool

/-- A contributor, with what it returns when it is asked for its sections. -/
structure Source where
  name : Text
  sections : Except Text (List Section)

/-- Why a section is in the account of what was left out. -/
inductive Reason
  | failed (err : Text)
  | noContent
  | keptTokens (budget : ℤ)
  | keptRunes (budget : ℤ)
  | droppedTokens (tokens : ℕ) (budget : ℤ)
  | droppedRunes (runes : ℕ) (budget : ℤ)

def Reason.text : Reason → Text
  | failed err => utf8 "contributor failed: " ++ err
  | noContent => utf8 "contributed no content"
  | keptTokens budget => utf8 "exceeded the " ++ decimal budget.toNat ++
    utf8 "-token budget but was kept: an essential section is never trimmed"
  | keptRunes budget => utf8 "exceeded the " ++ decimal budget.toNat ++
    utf8 "-rune budget but was kept: an essential section is never trimmed"
  | droppedTokens tokens budget => utf8 "dropped: " ++ decimal tokens ++
    utf8 " tokens would exceed the " ++ decimal budget.toNat ++ utf8 "-token budget"
  | droppedRunes n budget => utf8 "dropped: " ++ decimal n ++ utf8 " runes would exceed the " ++
    decimal budget.toNat ++ utf8 "-rune budget"

/-- The section is in the prompt all the same. -/
def Reason.isKept : Reason → Bool
  | keptTokens _ => true
  | keptRunes _ => true
  | _ => false

structure Included where
  name : Text
  source : Text
  runes : ℕ
  tokens : ℕ

structure Omitted where
  name : Text
  source : Text
  reason : Reason

structure Report where
  included : List Included
  omitted : List Omitted
  failed : List Omitted
  runes : ℕ
  tokens : ℕ

/-- The registered sources and the bounds; a bound that is not positive is none. -/
structure Assembler where
  sources : List Source
  maxRunes : ℤ
  maxTokens : ℤ

structure Entry where
  part : Section
  source : Text

def Entry.text (e : Entry) : Text := trimSpace e.part.text

def Entry.runes (e : Entry) : ℕ := (Encoding.runes e.text).length

def Entry.tokens (e : Entry) : ℕ := estimate e.text

def Entry.record (e : Entry) : Included := ⟨e.part.name,e.source,e.runes,e.tokens⟩

/-- What the sources contributed: the entries, the sections without content and the sources that
failed. -/
structure Gathered where
  entries : List Entry
  omitted : List Omitted
  failed : List Omitted

def gatherSection (source : Text) (g : Gathered) (s : Section) : Gathered :=
  if trimSpace s.text = [] then { g with omitted := g.omitted ++ [⟨s.name,source,.noContent⟩] }
  else { g with entries := g.entries ++ [⟨s,source⟩] }

def gatherSource (g : Gathered) (s : Source) : Gathered :=
  match s.sections with
  | .error err => { g with failed := g.failed ++ [⟨s.name,s.name,.failed err⟩] }
  | .ok sections => sections.foldl (gatherSection s.name) g

def gather (sources : List Source) : Gathered := sources.foldl gatherSource ⟨[],[],[]⟩

/-- One entry sorts before another: by its order, then by its name. -/
def less (a b : Entry) : Bool :=
  if a.part.order ≠ b.part.order then decide (a.part.order < b.part.order)
    else decide (a.part.name < b.part.name)

/-- The entries in the order of the prompt; the sort is stable. -/
def inOrder (entries : List Entry) : List Entry := entries.mergeSort (fun a b => !less b a)

/-- The prompt as far as it is built. -/
structure Building where
  text : Text
  usedRunes : ℕ
  usedTokens : ℕ
  included : List Included
  omitted : List Omitted

def write (s : Building) (e : Entry) : Building where
  text := (if s.text ≠ [] then s.text ++ [10,10] else s.text) ++ e.text
  usedRunes := s.usedRunes+e.runes
  usedTokens := s.usedTokens+e.tokens
  included := s.included ++ [e.record]
  omitted := s.omitted

def overRunes (a : Assembler) (s : Building) (e : Entry) : Bool :=
  decide (0 < a.maxRunes ∧ a.maxRunes < s.usedRunes+e.runes)

def overTokens (a : Assembler) (s : Building) (e : Entry) : Bool :=
  decide (0 < a.maxTokens ∧ a.maxTokens < s.usedTokens+e.tokens)

def note (s : Building) (e : Entry) (reason : Reason) : Building :=
  { s with omitted := s.omitted ++ [⟨e.part.name,e.source,reason⟩] }

def place (a : Assembler) (s : Building) (e : Entry) : Building :=
  if overRunes a s e || overTokens a s e then
    if e.part.essential then write (note s e (if overTokens a s e then .keptTokens a.maxTokens
      else .keptRunes a.maxRunes)) e
    else note s e (if overTokens a s e then .droppedTokens e.tokens a.maxTokens
      else .droppedRunes e.runes a.maxRunes)
  else write s e

def assemble (a : Assembler) : Text × Report :=
  let g := gather a.sources
  let s := (inOrder g.entries).foldl (place a) ⟨[],0,0,[],g.omitted⟩
  (s.text,⟨s.included,s.omitted,g.failed,(Encoding.runes s.text).length,estimate s.text⟩)

/-- Why a source is refused. -/
inductive AddError
  | noName
  | alreadyRegistered (name : Text)

/-- The message of a refusal, over the quoting of a name. -/
def AddError.text (quote : Text → Text) : AddError → Text
  | noName => utf8 "prompt: a source must have a name"
  | alreadyRegistered name => utf8 "prompt: source " ++ quote name ++ utf8 " is already registered"

/-- Register sources, up to the first that has no name or a name that is taken. -/
def add (a : Assembler) : List (Option Source) → Assembler × Option AddError
  | [] => (a,none)
  | none :: _ => (a,some .noName)
  | some s :: rest =>
    if s.name = [] then (a,some .noName)
    else if a.sources.any (fun e => e.name == s.name) then (a,some (.alreadyRegistered s.name))
    else add { a with sources := a.sources ++ [s] } rest

/-- Two registered sources never share a name. -/
theorem add_names {a : Assembler} (h : (a.sources.map Source.name).Nodup)
    (sources : List (Option Source)) : ((add a sources).1.sources.map Source.name).Nodup := by
  induction sources generalizing a with
  | nil => exact h
  | cons s rest ih =>
    cases s with
    | none => exact h
    | some s =>
      unfold add
      split
      · exact h
      split
      · exact h
      · rename_i hnew
        apply ih
        rw [List.map_append,List.nodup_append]
        refine ⟨h,List.nodup_singleton _,?_⟩
        rintro x hx y hy rfl
        obtain ⟨e,he,rfl⟩ := List.mem_map.mp hx
        apply hnew
        rw [List.any_eq_true]
        exact ⟨e,he,by simpa using hy⟩

section estimates

/-- A text that begins with content. -/
def Solid (text : Text) : Prop := text ≠ [] ∧ text.head? ≠ some 32

lemma Solid.tokens {text : Text} (h : Solid text) :
    (text.foldl TokenScan.step start).tokens ≠ 0 := by
  obtain ⟨hne,hhead⟩ := h
  cases text with
  | nil => exact absurd rfl hne
  | cons c text =>
    have hc : ¬ c.toNat = ' '.toNat :=
      fun heq => hhead (by rw [UInt8.toNat_inj.mp (show c.toNat = UInt8.toNat 32 from heq)]; rfl)
    have hone : 1 ≤ (start.step c).tokens := by
      unfold TokenScan.step start
      dsimp only
      rw [if_neg hc]
      split
      · exact Nat.le_refl 1
      split
      · exact Nat.le_refl 1
      · exact Nat.le_refl 1
    have hle := tokens_le_scan (start.step c) text
    rw [List.foldl_cons]
    omega

lemma Solid.estimate {text : Text} (h : Solid text) :
    estimate text = (text.foldl TokenScan.step start).tokens := by
  have htokens := h.tokens
  rw [Harness.estimate,if_neg h.1]
  omega

lemma trimSpace_solid {text : Text} (h : trimSpace text ≠ []) : Solid (trimSpace text) := by
  refine ⟨h,fun hhead => ?_⟩
  obtain ⟨rest,hrest⟩ := trimRightSpace_begins (trimLeftSpace text)
  have hnone := @trimWords_none spaces (by decide) text.length text (Nat.le_refl _) [32] (by decide)
  apply hnone
  unfold Encoding.trimSpace at h hhead
  cases htrim : trimRightSpace (trimLeftSpace text) with
  | nil => exact absurd htrim h
  | cons c cs =>
    rw [htrim] at hhead hrest
    cases hhead
    exact ⟨cs ++ rest,hrest⟩

/-- Some texts with an empty line between them. -/
def joined : List Text → Text
  | [] => []
  | [t] => t
  | t :: rest => t ++ 10 :: 10 :: joined rest

lemma joined_cons {t : Text} {rest : List Text} (h : rest ≠ []) :
    joined (t :: rest) = t ++ 10 :: 10 :: joined rest := by
  cases rest with
  | nil => exact absurd rfl h
  | cons u rest => rfl

lemma joined_snoc {ts : List Text} (h : ts ≠ []) (t : Text) :
    joined (ts ++ [t]) = joined ts ++ [10,10] ++ t := by
  induction ts with
  | nil => exact absurd rfl h
  | cons u ts ih =>
    rw [List.cons_append,joined_cons (by simp)]
    by_cases hts : ts = []
    · subst hts
      simp [joined]
    · rw [joined_cons hts,ih hts]
      simp

lemma joined_solid {ts : List Text} (hne : ts ≠ []) (h : ∀ t ∈ ts, Solid t) :
    Solid (joined ts) := by
  cases ts with
  | nil => exact absurd rfl hne
  | cons t ts =>
    have ht := h t List.mem_cons_self
    by_cases hts : ts = []
    · subst hts
      exact ht
    · rw [joined_cons hts]
      refine ⟨by simp,?_⟩
      rw [List.head?_append_of_ne_nil _ ht.1]
      exact ht.2

/-- The estimate of the joined texts is that of the texts and two for each empty line. -/
lemma estimate_joined {ts : List Text} (hne : ts ≠ []) (h : ∀ t ∈ ts, Solid t) :
    estimate (joined ts)+2 = (ts.map estimate).sum+2*ts.length := by
  induction ts with
  | nil => exact absurd rfl hne
  | cons t ts ih =>
    have ht := h t List.mem_cons_self
    by_cases hts : ts = []
    · subst hts
      simp [joined]
    · have hrest := ih hts (fun u hu => h u (List.mem_cons_of_mem _ hu))
      have hsolid := joined_solid hts (fun u hu => h u (List.mem_cons_of_mem _ hu))
      have hall := joined_solid hne h
      rw [hall.estimate,joined_cons hts,List.foldl_append,List.foldl_cons,List.foldl_cons,
        step_newline,step_newline,scan_fresh rfl rfl]
      rw [hsolid.estimate] at hrest
      rw [List.map_cons,List.sum_cons,List.length_cons,ht.estimate]
      dsimp only
      omega

lemma runes_joined {ts : List Text} (hne : ts ≠ []) :
    (Encoding.runes (joined ts)).length+2 =
    (ts.map (fun t => (Encoding.runes t).length)).sum+2*ts.length := by
  induction ts with
  | nil => exact absurd rfl hne
  | cons t ts ih =>
    by_cases hts : ts = []
    · subst hts
      simp [joined]
    · have hrest := ih hts
      have hfirst : ∀ x ∈ (10 :: 10 :: joined ts).head?, UInt8.IsUTF8FirstByte x := by
        intro x hx
        cases hx
        decide
      have hlines : Encoding.runes (10 :: 10 :: joined ts) =
        Char.ofNat 10 :: Char.ofNat 10 :: Encoding.runes (joined ts) := by
        have hone : ∀ rest : Text,
          Encoding.runes (10 :: rest) = Char.ofNat 10 :: Encoding.runes rest :=
          fun rest => runes_encode (Char.ofNat 10) rest
        rw [hone,hone]
      rw [joined_cons hts,runes_append hfirst,hlines,List.length_append,List.length_cons,
        List.length_cons,List.map_cons,List.sum_cons,List.length_cons]
      omega

end estimates
end Manvi.Prompt
