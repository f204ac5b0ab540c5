import Manvi.Session.Visible

/-! What the comparable texts of two blocks say about the blocks. -/
namespace Manvi.Session
open Manvi.Encoding Manvi.LLM

lemma encode_injective {x y : Json} (h : Json.encode x = Json.encode y) : x = y := by
  have hx := Json.parse_encode x
  rw [h,Json.parse_encode] at hx
  exact (Option.some.inj hx).symm

lemma encodeStrings_injective {a b : List (List Char)} (h : encodeStrings a = encodeStrings b) :
    a = b := by
  have hstr : Function.Injective (fun s : List Char => Json.str (String.ofList s)) := by
    intro s t hst
    have := Json.str.inj hst
    simpa using congrArg String.toList this
  cases a with
  | nil => cases b with
    | nil => rfl
    | cons s ss =>
      have := encode_injective (y := .arr ((s :: ss).map (fun s => .str (String.ofList s)))) h
      cases this
  | cons s ss => cases b with
    | nil =>
      have := encode_injective (x := .arr ((s :: ss).map (fun s => .str (String.ofList s)))) h
      cases this
    | cons t ts =>
      have := Json.arr.inj (encode_injective h)
      exact List.map_injective_iff.mpr hstr this

/-! Reading a list of strings: outside of a string, inside of one, or behind a backslash. -/

inductive Reading where
  | out
  | inside
  | escape
deriving DecidableEq

namespace Reading

def step : Reading → Char → Option Reading
  | .out,c =>
    if c = '"' then some .inside else if c = '[' ∨ c = ',' ∨ c = ']' then some .out else none
  | .inside,c => if c = '"' then some .out else if c = '\\' then some .escape else some .inside
  | .escape,_ => some .inside

def run (q : Reading) (text : List Char) : Option Reading := text.foldlM step q

@[simp] lemma run_append (q : Reading) (a b : List Char) :
    q.run (a ++ b) = (q.run a).bind (fun p => p.run b) := by
  rw [run,List.foldlM_append]
  rfl

@[simp] lemma run_cons (q : Reading) (c : Char) (text : List Char) :
    q.run (c :: text) = (q.step c).bind (fun p => p.run text) := rfl

lemma run_plain {text : List Char} (h : ∀ c ∈ text, c ≠ '"' ∧ c ≠ '\\') :
    inside.run text = some inside := by
  induction text with
  | nil => rfl
  | cons c text ih =>
    obtain ⟨hq,hb⟩ := h c List.mem_cons_self
    rw [run_cons,step,if_neg hq,if_neg hb]
    exact ih (fun d hd => h d (List.mem_cons_of_mem _ hd))

lemma hexDigit_plain {n : ℕ} (h : n < 16) : Json.hexDigit n ≠ '"' ∧ Json.hexDigit n ≠ '\\' := by
  interval_cases n <;> decide

lemma run_encodeChar (c : Char) : inside.run (Json.encodeChar c) = some inside := by
  unfold Json.encodeChar
  split_ifs with hq hb
  any_goals rfl
  · have hplain : inside.run [Json.hexDigit (c.toNat/4096%16),Json.hexDigit (c.toNat/256%16),
        Json.hexDigit (c.toNat/16%16),Json.hexDigit (c.toNat%16)] = some inside := by
      apply run_plain
      intro d hd
      simp only [List.mem_cons,List.not_mem_nil,or_false] at hd
      rcases hd with rfl | rfl | rfl | rfl <;> exact hexDigit_plain (Nat.mod_lt _ (by decide))
    exact hplain
  · exact run_plain (by simpa using ⟨hq,hb⟩)

lemma run_flatMap_encodeChar (cs : List Char) :
    inside.run (cs.flatMap Json.encodeChar) = some inside := by
  induction cs with
  | nil => rfl
  | cons c cs ih =>
    rw [List.flatMap_cons,run_append,run_encodeChar]
    exact ih

lemma run_encodeString (s : String) : out.run (Json.encodeString s) = some out := by
  rw [Json.encodeString,run_cons,step,if_pos rfl,Option.bind_some,run_append,run_flatMap_encodeChar]
  rfl

lemma run_encodeItems (ss : List String) :
    out.run (Json.encodeItems (ss.map Json.str)) = some out := by
  induction ss with
  | nil => rfl
  | cons s ss ih =>
    cases ss with
    | nil =>
      simp only [List.map_cons,List.map_nil,Json.encodeItems,Json.encode]
      rw [run_append,run_encodeString]
      rfl
    | cons t ts =>
      simp only [List.map_cons,Json.encodeItems,Json.encode] at ih ⊢
      rw [run_append,run_encodeString,Option.bind_some,run_cons]
      exact ih

lemma run_encodeStrings (s : List Char) (ss : List (List Char)) :
    out.run (encodeStrings (s :: ss)) = some out := by
  have h := run_encodeItems ((s :: ss).map String.ofList)
  rw [List.map_map] at h
  simp only [encodeStrings,Json.encode]
  exact h

/-- What is read from outside of a string cannot be read from inside of one to the same end. -/
lemma run_opposite {text : List Char} {q : Reading} (h : out.run text = some q)
    {p : Reading} (h' : inside.run text = some p) :
    (q = out ∧ p = inside) ∨ (q = inside ∧ p = out) := by
  induction text using List.reverseRecOn generalizing q p with
  | nil =>
    cases h
    cases h'
    exact .inl ⟨rfl,rfl⟩
  | append_singleton text c ih =>
    rw [run_append] at h h'
    obtain ⟨q1,hq1,h⟩ := Option.bind_eq_some_iff.mp h
    obtain ⟨p1,hp1,h'⟩ := Option.bind_eq_some_iff.mp h'
    have hstep : ∀ r s : Reading, r.run [c] = some s → r.step c = some s := by
      intro r s hr
      rw [run_cons] at hr
      cases hs : r.step c with
      | none => rw [hs] at hr; cases hr
      | some s' => rw [hs] at hr; exact hr
    have h := hstep _ _ h
    have h' := hstep _ _ h'
    have hboth : ∀ s s' : Reading, out.step c = some s → inside.step c = some s' →
        (s = out ∧ s' = inside) ∨ (s = inside ∧ s' = out) := by
      intro s s' ho hi
      simp only [step] at ho hi
      split_ifs at ho hi with hq hsep hb
      · cases ho
        cases hi
        exact .inr ⟨rfl,rfl⟩
      · subst hb
        simp at hsep
      · cases ho
        cases hi
        exact .inl ⟨rfl,rfl⟩
    rcases ih hq1 hp1 with ⟨rfl,rfl⟩ | ⟨rfl,rfl⟩
    · exact hboth q p h h'
    · rcases hboth p q h' h with hb | hb
      · exact .inr ⟨hb.2,hb.1⟩
      · exact .inl ⟨hb.2,hb.1⟩

/-- A list of strings does not end in a colon and another list of strings. -/
lemma encodeStrings_ne_colon (a b : List (List Char)) (text : List Char) :
    encodeStrings a ≠ text ++ ':' :: encodeStrings b := by
  intro h
  cases a with
  | nil =>
    have hmem : ':' ∈ encodeStrings [] := by
      rw [h]
      simp
    revert hmem
    decide
  | cons s ss =>
    have hrun := run_encodeStrings s ss
    rw [h,run_append] at hrun
    obtain ⟨q,_,hrun⟩ := Option.bind_eq_some_iff.mp hrun
    rw [run_cons] at hrun
    have hin : q.step ':' = some inside ∨ q.step ':' = none := by
      cases q <;> decide
    rcases hin with hin | hin
    · rw [hin,Option.bind_some] at hrun
      cases b with
      | nil => cases hrun
      | cons t ts =>
        rcases run_opposite (run_encodeStrings t ts) hrun with ⟨_,hp⟩ | ⟨hq,_⟩
        · cases hp
        · cases hq
    · rw [hin] at hrun
      cases hrun

end Reading

/-- A text without a colon, and what follows it. -/
lemma split_colon {a b u w : List Char} (ha : ':' ∉ a) (h : u ++ ':' :: w = a ++ ':' :: b) :
    (u = a ∧ w = b) ∨ ∃ z, u = a ++ ':' :: z ∧ z ++ ':' :: w = b := by
  rcases List.append_eq_append_iff.mp h with ⟨z,rfl,hz⟩ | ⟨z,rfl,hz⟩
  · cases z with
    | nil =>
      left
      rw [List.nil_append] at hz
      exact ⟨(List.append_nil u).symm,(List.cons.inj hz).2⟩
    | cons c z =>
      exfalso
      rw [List.cons_append] at hz
      apply ha
      rw [← (List.cons.inj hz).1]
      simp
  · cases z with
    | nil =>
      left
      rw [List.nil_append] at hz
      exact ⟨List.append_nil a,(List.cons.inj hz).2.symm⟩
    | cons c z =>
      right
      rw [List.cons_append] at hz
      obtain ⟨rfl,hrest⟩ := List.cons.inj hz
      exact ⟨z,rfl,hrest.symm⟩

lemma boolText_plain (b : Bool) : ':' ∉ boolText b := by
  cases b <;> decide

/-- The head of what follows an error flag. -/
lemma encodeStrings_head (ss : List (List Char)) (b : Bool) (w : List Char) :
    encodeStrings ss ≠ boolText b ++ w := by
  intro h
  have hhead := congrArg List.head? h
  cases ss <;> cases b <;> simp [encodeStrings,Json.encode,boolText] at hhead

/-- The text of a result determines its call, its flag and its content's texts. -/
lemma resultText_injective {id id' : CallID} {e e' : Bool} {ss ss' : List (List Char)}
    (h : resultText id e ss = resultText id' e' ss') : id = id' ∧ e = e' ∧ ss = ss' := by
  have hrest := List.append_cancel_left h
  have hside : ∀ {u u' : List Char} {e e' : Bool} {ss ss' : List (List Char)},
      u ++ ':' :: (boolText e ++ ':' :: encodeStrings ss) =
        u' ++ ':' :: (boolText e' ++ ':' :: encodeStrings ss') →
      ∀ z, u = u' ++ ':' :: z → False := by
    rintro u u' e e' ss ss' h z rfl
    rw [List.append_assoc,List.cons_append] at h
    have h1 := (List.cons.inj (List.append_cancel_left h)).2
    rcases split_colon (boolText_plain e') h1 with ⟨_,h2⟩ | ⟨z',_,h2⟩
    · exact encodeStrings_head _ _ _ h2.symm
    · apply Reading.encodeStrings_ne_colon ss' ss (z' ++ ':' :: boolText e)
      rw [← h2,List.append_assoc,List.cons_append]
  have hids : id.toList = id'.toList := by
    rcases List.append_eq_append_iff.mp hrest with ⟨z,hz,hw⟩ | ⟨z,hz,hw⟩
    · cases z with
      | nil => simpa using hz.symm
      | cons c z =>
        obtain ⟨rfl,_⟩ := List.cons.inj hw
        exact (hside hrest.symm z hz).elim
    · cases z with
      | nil => simpa using hz
      | cons c z =>
        obtain ⟨rfl,_⟩ := List.cons.inj hw
        exact (hside hrest z hz).elim
  rw [hids] at hrest
  have hflag := (List.cons.inj (List.append_cancel_left hrest)).2
  rcases split_colon (boolText_plain e') hflag with ⟨he,hss⟩ | ⟨z,hz,_⟩
  · refine ⟨String.toList_injective hids,?_,encodeStrings_injective hss⟩
    cases e <;> cases e' <;> first | rfl | cases he
  · exfalso
    apply boolText_plain e
    rw [hz]
    simp

lemma hexByte_injective {a b : UInt8} (h : hexByte a = hexByte b) : a = b := by
  obtain ⟨hhigh,hlow⟩ := List.cons.inj h
  have hdigit : ∀ {m n : ℕ}, m < 16 → n < 16 → Json.hexDigit m = Json.hexDigit n → m = n := by
    intro m n hm hn hmn
    have hv := congrArg Json.hexValue hmn
    rw [Json.hexValue_hexDigit hm,Json.hexValue_hexDigit hn] at hv
    exact Option.some.inj hv
  have ha := a.toNat_lt
  have hb := b.toNat_lt
  have h1 := hdigit (by omega) (by omega) hhigh
  have h2 := hdigit (by omega) (by omega) (List.cons.inj hlow).1
  apply UInt8.toNat_inj.mp
  omega

lemma flatMap_hexByte_injective {a b : List UInt8} (h : a.flatMap hexByte = b.flatMap hexByte) :
    a = b := by
  induction a generalizing b with
  | nil => cases b with
    | nil => rfl
    | cons y b => cases h
  | cons x a ih => cases b with
    | nil => cases h
    | cons y b =>
      rw [List.flatMap_cons,List.flatMap_cons] at h
      obtain ⟨hxy,hab⟩ := List.append_inj h rfl
      rw [hexByte_injective hxy,ih hab]

/-- The text of an image is its media type and the digest of its bytes. -/
lemma imageText_eq_iff {m m' : String} {d d' : List UInt8} :
    imageText m d = imageText m' d' ↔ m = m' ∧ sha256 d = sha256 d' := by
  constructor
  · intro h
    have hlength : ∀ data : List UInt8, ((sha256 data).flatMap hexByte).length = 64 := by
      intro data
      simp [List.length_flatMap,hexByte,sha256_length]
    have hrest := List.append_cancel_left h
    obtain ⟨hm,hd⟩ := List.append_inj' hrest (by simp only [List.length_cons,hlength])
    exact ⟨String.toList_injective hm,flatMap_hexByte_injective (List.cons.inj hd).2⟩
  · rintro ⟨rfl,h⟩
    exact congrArg (fun digest => "image:".toList ++ (m.toList ++ ':' :: digest.flatMap hexByte)) h

/-- Images compared by media type and digest. -/
def digestImages (m : String) (d : List UInt8) (m' : String) (d' : List UInt8) : Bool :=
  m = m' && sha256 d = sha256 d'

/-- Calls compared by their joined texts. -/
def joinedCalls (id : CallID) (name : String) (args : RawMessage)
    (id' : CallID) (name' : String) (args' : RawMessage) : Bool :=
  callText id name args = callText id' name' args'

/-- Texts that begin differently are different. -/
lemma begins_apart {p q a b : List Char} (k : ℕ) (hp : k ≤ p.length) (hq : k ≤ q.length)
    (hk : p.take k ≠ q.take k) : p ++ a ≠ q ++ b := by
  intro h
  apply hk
  have htake := congrArg (List.take k) h
  rwa [List.take_append_of_le_length hp,List.take_append_of_le_length hq] at htake

lemma visibleBlocks_dropWhile (blocks : List ContentBlock) :
    visibleBlocks (blocks.dropWhile ContentBlock.isReasoning) = visibleBlocks blocks := by
  induction blocks with
  | nil => rfl
  | cons b blocks ih =>
    cases b with
    | reasoning t d p => exact ih
    | _ => rfl

/-- Blocks of different kinds have different texts. -/
lemma visibleBlock_kind {b c : ContentBlock} (hb : b.isReasoning = false)
    (hc : c.isReasoning = false)
    (h : visibleBlock b = visibleBlock c) : b.ctorIdx = c.ctorIdx := by
  cases b <;> cases c
  any_goals rfl
  any_goals cases hb
  any_goals cases hc
  all_goals
    exfalso
    have htext := (List.cons.inj h).1
    first
      | exact begins_apart 1 (by decide) (by decide) (by decide) htext
      | exact begins_apart 2 (by decide) (by decide) (by decide) htext
      | exact begins_apart 6 (by decide) (by decide) (by decide) htext

lemma matchBlock_kind {images : String → List UInt8 → String → List UInt8 → Bool}
    {calls : CallID → String → RawMessage → CallID → String → RawMessage → Bool}
    {b c : ContentBlock}
    (h : matchBlock images calls b c = true) : b.ctorIdx = c.ctorIdx := by
  cases b <;> cases c <;> first | rfl | simp [matchBlock] at h

lemma visibleBlock_single {b : ContentBlock} (hb : b.isReasoning = false) :
    ∃ t, visibleBlock b = [t] := by
  cases b with
  | reasoning t d p => cases hb
  | _ => exact ⟨_,rfl⟩

lemma dropWhile_head {sent rest : List ContentBlock} {c : ContentBlock}
    (h : sent.dropWhile ContentBlock.isReasoning = c :: rest) : c.isReasoning = false := by
  have hhead := List.head?_dropWhile_not ContentBlock.isReasoning sent
  rw [h] at hhead
  exact hhead

mutual
/-- Two blocks with a text have the same one exactly when they compare alike. -/
theorem visibleBlock_eq_iff (b c : ContentBlock) (hb : b.isReasoning = false)
    (hc : c.isReasoning = false) :
    visibleBlock b = visibleBlock c ↔ matchBlock digestImages joinedCalls b c = true := by
  by_cases hkind : b.ctorIdx = c.ctorIdx
  swap
  · exact ⟨fun h => (hkind (visibleBlock_kind hb hc h)).elim,
      fun h => (hkind (matchBlock_kind h)).elim⟩
  match b,c with
  | .text a,.text a' =>
    simp only [visibleBlock,matchBlock,List.cons.injEq,and_true,decide_eq_true_eq]
    constructor
    · intro h
      exact String.toList_injective (List.append_cancel_left h)
    · rintro rfl
      rfl
  | .reasoning _ _ _,_ => cases hb
  | .image m d,.image m' d' =>
    simp only [visibleBlock,matchBlock,digestImages,List.cons.injEq,and_true,Bool.and_eq_true,
      decide_eq_true_eq,imageText_eq_iff]
  | .toolCall id name args,.toolCall id' name' args' =>
    simp only [visibleBlock,matchBlock,joinedCalls,List.cons.injEq,and_true,decide_eq_true_eq]
  | .toolResult id content e,.toolResult id' content' e' =>
    simp only [visibleBlock,matchBlock,List.cons.injEq,and_true,Bool.and_eq_true,decide_eq_true_eq,
      ← visibleBlocks_eq_iff content content']
    constructor
    · intro h
      obtain ⟨hid,he,hcontent⟩ := resultText_injective h
      exact ⟨⟨hid,he⟩,hcontent⟩
    · rintro ⟨⟨rfl,rfl⟩,h⟩
      rw [h]
termination_by structural b

/-- Two contents have the same texts exactly when they compare alike. -/
theorem visibleBlocks_eq_iff (bs sent : List ContentBlock) :
    visibleBlocks bs = visibleBlocks sent ↔
    matchBlocks digestImages joinedCalls bs sent = true := by
  rw [← visibleBlocks_dropWhile sent]
  match bs with
  | [] =>
    rw [matchBlocks,List.isEmpty_iff]
    cases hs : sent.dropWhile ContentBlock.isReasoning with
    | nil => simp only [visibleBlocks]
    | cons c rest =>
      obtain ⟨t,ht⟩ := visibleBlock_single (dropWhile_head hs)
      simp [visibleBlocks,ht]
  | b :: bs =>
    rw [matchBlocks]
    by_cases hb : b.isReasoning
    · rw [if_pos hb,← visibleBlocks_eq_iff bs sent,visibleBlocks_dropWhile,
        ← visibleBlocks_dropWhile (b :: bs),
        List.dropWhile_cons_of_pos hb,visibleBlocks_dropWhile]
    · rw [if_neg hb]
      rw [Bool.not_eq_true] at hb
      obtain ⟨t,ht⟩ := visibleBlock_single hb
      cases hs : sent.dropWhile ContentBlock.isReasoning with
      | nil => simp [visibleBlocks,ht]
      | cons c rest =>
        have hc := dropWhile_head hs
        obtain ⟨u,hu⟩ := visibleBlock_single hc
        simp only [Bool.and_eq_true,← visibleBlock_eq_iff b c hb hc,← visibleBlocks_eq_iff bs rest,
          visibleBlocks,ht,hu,List.cons_append,List.nil_append,List.cons.injEq,and_true]
termination_by structural bs
end

end Manvi.Session
