import Manvi.Session.VisibleText

/-! When the check before a request accepts exactly the subsequences of the projection. -/
namespace Manvi.Encoding
namespace Json

section
variable (numbers : Number → Number → Bool)

mutual
/-- Compare two documents place by place, given how numbers compare. -/
def alike : Json → Json → Bool
  | .null,.null => true
  | .bool a,.bool b => a = b
  | .num m,.num n => numbers m n
  | .str a,.str b => a = b
  | .arr xs,.arr ys => alikeItems xs ys
  | .obj ms,.obj ns => alikeMembers ms ns
  | _,_ => false

def alikeItems : List Json → List Json → Bool
  | [],[] => true
  | x :: xs,y :: ys => alike x y && alikeItems xs ys
  | _,_ => false

def alikeMembers : List (String × Json) → List (String × Json) → Bool
  | [],[] => true
  | (k,v) :: ms,(l,w) :: ns => k = l && alike v w && alikeMembers ms ns
  | _,_ => false
end

end

mutual
/-- The numbers that stand in the same places of two documents. -/
def numberPairs : Json → Json → List (Number × Number)
  | .num m,.num n => [(m,n)]
  | .arr xs,.arr ys => numberPairsItems xs ys
  | .obj ms,.obj ns => numberPairsMembers ms ns
  | _,_ => []

def numberPairsItems : List Json → List Json → List (Number × Number)
  | x :: xs,y :: ys => numberPairs x y ++ numberPairsItems xs ys
  | _,_ => []

def numberPairsMembers : List (String × Json) → List (String × Json) → List (Number × Number)
  | (_,v) :: ms,(_,w) :: ns => numberPairs v w ++ numberPairsMembers ms ns
  | _,_ => []
end

section
variable {f g : Number → Number → Bool}

mutual
/-- Documents compare alike under two comparisons that agree on the numbers they pair. -/
lemma alike_congr (x y : Json) (h : ∀ p ∈ numberPairs x y, f p.1 p.2 = g p.1 p.2) :
    alike f x y = alike g x y := by
  match x,y with
  | .num m,.num n =>
    simp only [alike]
    exact h (m,n) List.mem_cons_self
  | .arr xs,.arr ys =>
    simp only [alike]
    exact alikeItems_congr xs ys h
  | .obj ms,.obj ns =>
    simp only [alike]
    exact alikeMembers_congr ms ns h
  | .null,y => cases y <;> rfl
  | .bool _,y => cases y <;> rfl
  | .str _,y => cases y <;> rfl
  | .num _,.null | .num _,.bool _ | .num _,.str _ | .num _,.arr _ | .num _,.obj _ => rfl
  | .arr _,.null | .arr _,.bool _ | .arr _,.str _ | .arr _,.num _ | .arr _,.obj _ => rfl
  | .obj _,.null | .obj _,.bool _ | .obj _,.str _ | .obj _,.num _ | .obj _,.arr _ => rfl
termination_by structural x

lemma alikeItems_congr (xs ys : List Json)
    (h : ∀ p ∈ numberPairsItems xs ys, f p.1 p.2 = g p.1 p.2) :
    alikeItems f xs ys = alikeItems g xs ys := by
  match xs,ys with
  | [],ys => cases ys <;> rfl
  | _ :: _,[] => rfl
  | x :: xs,y :: ys =>
    rw [numberPairsItems,List.forall_mem_append] at h
    simp only [alikeItems,alike_congr x y h.1,alikeItems_congr xs ys h.2]
termination_by structural xs

lemma alikeMembers_congr (ms ns : List (String × Json))
    (h : ∀ p ∈ numberPairsMembers ms ns, f p.1 p.2 = g p.1 p.2) :
    alikeMembers f ms ns = alikeMembers g ms ns := by
  match ms,ns with
  | [],ns => cases ns <;> rfl
  | _ :: _,[] => rfl
  | (k,v) :: ms,(l,w) :: ns =>
    rw [numberPairsMembers,List.forall_mem_append] at h
    simp only [alikeMembers,alike_congr v w h.1,alikeMembers_congr ms ns h.2]
termination_by structural ms
end

mutual
lemma alike_refl (hf : ∀ n, f n n = true) (x : Json) : alike f x x = true := by
  match x with
  | .null | .bool _ | .str _ => simp [alike]
  | .num n => exact hf n
  | .arr xs => exact alikeItems_refl hf xs
  | .obj ms => exact alikeMembers_refl hf ms
termination_by structural x

lemma alikeItems_refl (hf : ∀ n, f n n = true) (xs : List Json) : alikeItems f xs xs = true := by
  match xs with
  | [] => rfl
  | x :: xs => rw [alikeItems,alike_refl hf x,alikeItems_refl hf xs,Bool.and_self]
termination_by structural xs

lemma alikeMembers_refl (hf : ∀ n, f n n = true) (ms : List (String × Json)) :
    alikeMembers f ms ms = true := by
  match ms with
  | [] => rfl
  | (k,v) :: ms =>
    simp only [alikeMembers,alike_refl hf v,alikeMembers_refl hf ms,decide_true,Bool.and_self]
termination_by structural ms
end

end

/-- Numbers compared as doubles, written out again. -/
def sameFloat (m n : Number) : Bool := m.float64 = n.float64

mutual
/-- Documents within range are written alike after rounding when their places agree up to it. -/
lemma refloat_eq_iff (x y : Json) (hx : x.inRange = true) (hy : y.inRange = true) :
    refloat x = refloat y ↔ alike sameFloat x y = true := by
  match x,y with
  | .num m,.num n =>
    obtain ⟨v,hv⟩ := Option.isSome_iff_exists.mp hx
    obtain ⟨w,hw⟩ := Option.isSome_iff_exists.mp hy
    simp [refloat,alike,sameFloat,hv,hw]
  | .arr xs,.arr ys =>
    simp only [refloat,alike,arr.injEq]
    exact refloatItems_eq_iff xs ys hx hy
  | .obj ms,.obj ns =>
    simp only [refloat,alike,obj.injEq]
    exact refloatMembers_eq_iff ms ns hx hy
  | .null,y => cases y <;> simp [refloat,alike]
  | .bool _,y => cases y <;> simp [refloat,alike]
  | .str _,y => cases y <;> simp [refloat,alike]
  | .num _,.null | .num _,.bool _ | .num _,.str _ | .num _,.arr _ | .num _,.obj _ =>
    simp [refloat,alike]
  | .arr _,.null | .arr _,.bool _ | .arr _,.str _ | .arr _,.num _ | .arr _,.obj _ =>
    simp [refloat,alike]
  | .obj _,.null | .obj _,.bool _ | .obj _,.str _ | .obj _,.num _ | .obj _,.arr _ =>
    simp [refloat,alike]
termination_by structural x

lemma refloatItems_eq_iff (xs ys : List Json) (hx : inRangeItems xs = true)
    (hy : inRangeItems ys = true) :
    refloatItems xs = refloatItems ys ↔ alikeItems sameFloat xs ys = true := by
  match xs,ys with
  | [],ys => cases ys <;> simp [refloatItems,alikeItems]
  | _ :: _,[] => simp [refloatItems,alikeItems]
  | x :: xs,y :: ys =>
    rw [inRangeItems,Bool.and_eq_true] at hx hy
    simp only [refloatItems,alikeItems,List.cons.injEq,Bool.and_eq_true,
      refloat_eq_iff x y hx.1 hy.1,refloatItems_eq_iff xs ys hx.2 hy.2]
termination_by structural xs

lemma refloatMembers_eq_iff (ms ns : List (String × Json)) (hx : inRangeMembers ms = true)
    (hy : inRangeMembers ns = true) : refloatMembers ms = refloatMembers ns ↔
    alikeMembers sameFloat ms ns = true := by
  match ms,ns with
  | [],ns => cases ns <;> simp [refloatMembers,alikeMembers]
  | _ :: _,[] => simp [refloatMembers,alikeMembers]
  | (k,v) :: ms,(l,w) :: ns =>
    rw [inRangeMembers,Bool.and_eq_true] at hx hy
    simp only [refloatMembers,alikeMembers,List.cons.injEq,Prod.mk.injEq,Bool.and_eq_true,
      decide_eq_true_eq,refloat_eq_iff v w hx.1 hy.1,refloatMembers_eq_iff ms ns hx.2 hy.2]
termination_by structural ms
end

lemma inRangeMembers_iff (ms : List (String × Json)) :
    inRangeMembers ms = true ↔ ∀ m ∈ ms, m.2.inRange = true := by
  induction ms with
  | nil => simp [inRangeMembers]
  | cons m ms ih => simp [inRangeMembers,ih]

lemma mem_of_mem_dedup {ms : List (String × Json)} {m : String × Json} (h : m ∈ dedup ms) :
    m ∈ ms := by
  induction ms with
  | nil => exact h
  | cons n ms ih =>
    rw [dedup] at h
    split_ifs at h with hlater
    · exact List.mem_cons_of_mem _ (ih h)
    · rcases List.mem_cons.mp h with rfl | h
      · exact List.mem_cons_self
      · exact List.mem_cons_of_mem _ (ih h)

mutual
lemma inRange_normal (x : Json) (h : x.inRange = true) : x.normal.inRange = true := by
  match x with
  | .null | .bool _ | .str _ => rfl
  | .num n => exact h
  | .arr xs => exact inRangeItems_normal xs h
  | .obj ms =>
    have hall := (inRangeMembers_iff _).mp (inRangeMembers_normal ms h)
    apply (inRangeMembers_iff _).mpr
    intro m hm
    exact hall m (mem_of_mem_dedup ((List.mem_insertionSort _).mp hm))
termination_by structural x

lemma inRangeItems_normal (xs : List Json) (h : inRangeItems xs = true) :
    inRangeItems (normalItems xs) = true := by
  match xs with
  | [] => rfl
  | x :: xs =>
    rw [inRangeItems,Bool.and_eq_true] at h
    rw [normalItems,inRangeItems,inRange_normal x h.1,inRangeItems_normal xs h.2,Bool.and_self]
termination_by structural xs

lemma inRangeMembers_normal (ms : List (String × Json)) (h : inRangeMembers ms = true) :
    inRangeMembers (normalMembers ms) = true := by
  match ms with
  | [] => rfl
  | (k,v) :: ms =>
    rw [inRangeMembers,Bool.and_eq_true] at h
    simp only [normalMembers,inRangeMembers,inRange_normal v h.1,inRangeMembers_normal ms h.2,
      Bool.and_self]
termination_by structural ms
end

end Json
end Manvi.Encoding

namespace Manvi.Session
open Manvi.Encoding Manvi.LLM

/-- Numbers compared by what they stand for. -/
def sameNumber (m n : Number) : Bool := m.value = n.value

/-- Arguments compared as JSON values; what does not decode is compared as it is. -/
def sameArguments (a b : RawMessage) : Bool :=
  match Json.parse a,Json.parse b with
  | some x,some y => Json.alike sameNumber x.normal y.normal
  | none,none => a = b
  | _,_ => false

/-- Images compared by what they hold. -/
def sameImages (m : String) (d : List UInt8) (m' : String) (d' : List UInt8) : Bool :=
  m = m' && d = d'

/-- Calls compared by what they hold. -/
def sameCalls (id : CallID) (name : String) (args : RawMessage)
    (id' : CallID) (name' : String) (args' : RawMessage) : Bool :=
  id = id' && name = name' && sameArguments args args'

/-- Whether a sent message reads as a logged one: the same role, and but for reasoning the same
blocks. -/
def Matches (logged sent : Message) : Bool :=
  logged.role = sent.role && matchBlocks sameImages sameCalls logged.content sent.content

def ReadsAs (sent logged : Message) : Prop := Matches logged sent = true

/-- Whether a sent message is written as a logged one is: the same role and the same texts. -/
def WrittenAs (sent logged : Message) : Prop :=
  logged.role = sent.role ∧ visibleBlocks logged.content = visibleBlocks sent.content

mutual
/-- The blocks that two blocks put side by side, themselves and what results hold. -/
def pairBlock (b c : ContentBlock) : List (ContentBlock × ContentBlock) :=
  match b with
  | .toolResult _ content _ => match c with
    | .toolResult _ content' _ => pairBlocks content content'
    | _ => []
  | _ => [(b,c)]

/-- The blocks that two contents put side by side, passing over reasoning. -/
def pairBlocks (bs sent : List ContentBlock) : List (ContentBlock × ContentBlock) :=
  match bs with
  | [] => []
  | b :: bs =>
    if b.isReasoning then pairBlocks bs sent
    else match sent.dropWhile ContentBlock.isReasoning with
      | [] => []
      | s :: rest => pairBlock b s ++ pairBlocks bs rest
end

/-- How a comparison judges two blocks by themselves. -/
def judges (images : String → List UInt8 → String → List UInt8 → Bool)
    (calls : CallID → String → RawMessage → CallID → String → RawMessage → Bool) :
    ContentBlock × ContentBlock → Bool
  | (.image m d,.image m' d') => images m d m' d'
  | (.toolCall id name args,.toolCall id' name' args') => calls id name args id' name' args'
  | _ => true

/-- Whether two contents are alike but for their images and calls. -/
def comparable : List ContentBlock → List ContentBlock → Bool :=
  matchBlocks (fun _ _ _ _ => true) (fun _ _ _ _ _ _ => true)

/-- Arguments whose numbers are within range and are merged by rounding only where they are
equal. -/
def ArgumentsApart (a b : RawMessage) : Prop :=
  match Json.parse a,Json.parse b with
  | some x,some y => a = b ∨ (x.inRange = true ∧ y.inRange = true ∧
      ∀ p ∈ Json.numberPairs x.normal y.normal, p.1.float64 = p.2.float64 ↔ p.1.value = p.2.value)
  | _,_ => True

/-- Blocks that their texts tell apart: no collision of digests, no call whose identifier and name
can be cut elsewhere, no numbers that rounding merges. -/
def Apart : ContentBlock × ContentBlock → Prop
  | (.image m d,.image m' d') => m = m' → sha256 d = sha256 d' → d = d'
  | (.toolCall id name args,.toolCall id' name' args') =>
    (callText id name args = callText id' name' args' → id = id' ∧ name = name') ∧
      (id = id' → name = name' → ArgumentsApart args args')
  | _ => True

section pairs
variable (images : String → List UInt8 → String → List UInt8 → Bool)
  (calls : CallID → String → RawMessage → CallID → String → RawMessage → Bool)

mutual
/-- A comparison of blocks is one of all but images and calls, and one of those side by side. -/
lemma matchBlock_eq (b c : ContentBlock) : matchBlock images calls b c =
    (matchBlock (fun _ _ _ _ => true) (fun _ _ _ _ _ _ => true) b c &&
      (pairBlock b c).all (judges images calls)) := by
  match b,c with
  | .toolResult id content e,.toolResult id' content' e' =>
    simp only [matchBlock,pairBlock]
    rw [matchBlocks_eq content content',← Bool.and_assoc]
    rfl
  | .text _,c => cases c <;> simp [matchBlock,pairBlock,judges]
  | .reasoning _ _ _,c => cases c <;> rfl
  | .image _ _,c => cases c <;> simp [matchBlock,pairBlock,judges]
  | .toolCall _ _ _,c => cases c <;> simp [matchBlock,pairBlock,judges]
  | .toolResult _ _ _,.text _ | .toolResult _ _ _,.reasoning _ _ _ | .toolResult _ _ _,.image _ _
  | .toolResult _ _ _,.toolCall _ _ _ => rfl
termination_by structural b

lemma matchBlocks_eq (bs sent : List ContentBlock) : matchBlocks images calls bs sent =
    (comparable bs sent && (pairBlocks bs sent).all (judges images calls)) := by
  match bs with
  | [] => simp [matchBlocks,comparable,pairBlocks]
  | b :: bs =>
    rw [comparable,matchBlocks,matchBlocks,pairBlocks]
    by_cases hb : b.isReasoning
    · rw [if_pos hb,if_pos hb,if_pos hb]
      exact matchBlocks_eq bs sent
    · rw [if_neg hb,if_neg hb,if_neg hb]
      cases hs : sent.dropWhile ContentBlock.isReasoning with
      | nil => rfl
      | cons s rest =>
        simp only
        rw [matchBlock_eq b s,matchBlocks_eq bs rest,List.all_append,comparable]
        ac_rfl
termination_by structural bs
end

end pairs

/-- What one comparison finds equal another does that allows as much side by side. -/
lemma matchBlocks_imp {images images' : String → List UInt8 → String → List UInt8 → Bool}
    {calls calls' : CallID → String → RawMessage → CallID → String → RawMessage → Bool}
    {bs sent : List ContentBlock}
    (h : ∀ p, judges images calls p = true → judges images' calls' p = true)
    (hm : matchBlocks images calls bs sent = true) : matchBlocks images' calls' bs sent = true := by
  rw [matchBlocks_eq,Bool.and_eq_true,List.all_eq_true] at hm ⊢
  exact ⟨hm.1,fun p hp => h p (hm.2 p hp)⟩

/-- The fast path answers true only where the texts agree. -/
lemma visibleBlocks_of_equalVisible {bs sent : List ContentBlock}
    (h : equalVisible bs sent = true) :
    visibleBlocks bs = visibleBlocks sent := by
  apply (visibleBlocks_eq_iff bs sent).mpr
  refine matchBlocks_imp ?_ h
  intro p hp
  obtain ⟨b,c⟩ := p
  cases b <;> cases c
  any_goals rfl
  case image.image m d m' d' =>
    simp only [judges,Bool.and_eq_true,decide_eq_true_eq] at hp
    simp only [judges,digestImages,hp.1,hp.2,decide_true,Bool.and_self]
  case toolCall.toolCall id name args id' name' args' =>
    simp only [judges,Bool.and_eq_true,Bool.or_eq_true,decide_eq_true_eq] at hp
    obtain ⟨⟨hid,hname⟩,hargs⟩ := hp
    have hcanonical : canonical args = canonical args' := by
      rcases hargs with hargs | hargs
      · rw [hargs]
      · exact hargs
    apply decide_eq_true
    unfold callText
    rw [hid,hname,hcanonical]

lemma firstDifference_eq_none_iff {i : ℕ} {l s : List (List Char)} (h : l.length = s.length) :
    firstDifference i l s = none ↔ l = s := by
  induction l generalizing i s with
  | nil =>
    cases s with
    | nil => simp [firstDifference]
    | cons b s => cases h
  | cons a l ih =>
    cases s with
    | nil => cases h
    | cons b s =>
      rw [firstDifference]
      by_cases hab : a = b
      · rw [if_pos hab,ih (Nat.succ.inj h),hab,List.cons.injEq]
        simp only [true_and]
      · simp [hab]

/-- A logged and a sent message compare alike exactly when their roles and texts agree. -/
theorem sameVisibleContent_eq_none_iff (logged sent : Message) :
    sameVisibleContent logged sent = none ↔ WrittenAs sent logged := by
  unfold sameVisibleContent WrittenAs
  by_cases hfast : logged.role = sent.role ∧ equalVisible logged.content sent.content
  · rw [if_pos hfast]
    exact ⟨fun _ => ⟨hfast.1,visibleBlocks_of_equalVisible hfast.2⟩,fun _ => rfl⟩
  rw [if_neg hfast]
  by_cases hrole : logged.role = sent.role
  · rw [if_neg (not_not.mpr hrole)]
    by_cases hlen : (visibleBlocks logged.content).length = (visibleBlocks sent.content).length
    · simp only [hlen,ne_eq,not_true_eq_false,if_false]
      rw [firstDifference_eq_none_iff hlen]
      exact ⟨fun h => ⟨hrole,h⟩,And.right⟩
    · simp only [hlen,ne_eq,not_false_eq_true,if_true,reduceCtorEq,false_iff,not_and]
      intro _ h
      exact hlen (congrArg List.length h)
  · simp [hrole]

section greedy
variable {α β : Type} {R : α → β → Prop}

lemma sublistForall₂_tail {a : α} {as : List α} {bs : List β}
    (h : List.SublistForall₂ R (a :: as) bs) :
    List.SublistForall₂ R as bs := by
  induction bs with
  | nil => cases h
  | cons b bs ih => cases h with
    | cons _ h => exact .cons_right h
    | cons_right h => exact .cons_right (ih h)

lemma sublistForall₂_take {a : α} {b : β} {as : List α} {bs : List β} (hab : R a b) :
    List.SublistForall₂ R (a :: as) (b :: bs) ↔ List.SublistForall₂ R as bs := by
  constructor
  · intro h
    cases h with
    | cons _ h => exact h
    | cons_right h => exact sublistForall₂_tail h
  · exact .cons hab

lemma sublistForall₂_skip {a : α} {b : β} {as : List α} {bs : List β} (hab : ¬ R a b) :
    List.SublistForall₂ R (a :: as) (b :: bs) ↔ List.SublistForall₂ R (a :: as) bs := by
  constructor
  · intro h
    cases h with
    | cons h' _ => exact (hab h').elim
    | cons_right h => exact h
  · exact .cons_right

end greedy

/-- The error of a search is all that depends on the differences met before. -/
lemma findLogged_ok_iff (sent : Message) (last last' : Option Divergence)
    (derived rest : List Message) :
    findLogged sent last derived = .ok rest ↔ findLogged sent last' derived = .ok rest := by
  cases derived with
  | nil => simp [findLogged]
  | cons d derived => rfl

/-- The scan accepts exactly the subsequences by texts. -/
theorem checkVisible_ok_iff (derived request : List Message) (i : ℕ) :
    checkVisible i derived request = .ok () ↔ List.SublistForall₂ WrittenAs request derived := by
  induction derived generalizing request i with
  | nil =>
    cases request with
    | nil => exact ⟨fun _ => .nil,fun _ => rfl⟩
    | cons s request =>
      constructor
      · intro hc
        cases hc
      · intro hc
        cases hc
  | cons d derived ih =>
    cases request with
    | nil => exact ⟨fun _ => .nil,fun _ => rfl⟩
    | cons s request =>
      have hiff := sameVisibleContent_eq_none_iff d s
      by_cases hm : WrittenAs s d
      · rw [checkVisible,findLogged,hiff.mpr hm,sublistForall₂_take (R := WrittenAs) hm]
        exact ih request _
      · rw [sublistForall₂_skip (R := WrittenAs) hm,← ih (s :: request) i,checkVisible,findLogged]
        cases hsame : sameVisibleContent d s with
        | none => exact (hm (hiff.mp hsame)).elim
        | some e =>
          simp only [checkVisible]
          cases hf : findLogged s (some e) derived with
          | ok rest => rw [(findLogged_ok_iff s _ none derived rest).mp hf]
          | error last =>
            cases hf' : findLogged s none derived with
            | error last' => simp
            | ok rest =>
              rw [(findLogged_ok_iff s _ (some e) derived rest).mp hf'] at hf
              cases hf

end Manvi.Session
