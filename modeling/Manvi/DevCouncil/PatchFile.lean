import Manvi.Encoding.Occurrences
import Manvi.Encoding.Space

/-! Patching a file: the lines of a range are cut out, searched for the target, and put back with it
replaced. -/
namespace Manvi.DevCouncil
open Manvi.Encoding

structure PatchArgs where
  path : String
  targetContent : Bytes
  replacementContent : Bytes
  startLine : ℤ
  endLine : ℤ
  allowMultiple : Bool
  deriving Repr, DecidableEq

/-- Replace the target in some text, where it is found and found once or may be found more often. -/
def PatchArgs.replace (args : PatchArgs) (missing : String) (repeated : ℕ → String)
    (chunk : Bytes) : Except String Bytes :=
  let occurrences := countWord args.targetContent chunk
  if occurrences = 0 then .error missing
  else if 1 < occurrences ∧ args.allowMultiple = false then .error (repeated occurrences)
  else if args.allowMultiple then
    .ok (replaceAll id args.targetContent args.replacementContent chunk)
  else .ok (replaceFirst args.targetContent args.replacementContent chunk)

/-- The first line of the range. -/
def PatchArgs.start (args : PatchArgs) : ℤ := if args.startLine < 1 then 1 else args.startLine

/-- The last line of the range, of so many lines. -/
def PatchArgs.stop (args : PatchArgs) (totalLines : ℤ) : ℤ :=
  if args.endLine < 1 ∨ totalLines < args.endLine then totalLines else args.endLine

/-- What is written for the content that was read. -/
def patchFile (args : PatchArgs) (content : Bytes) : Except String Bytes :=
  if args.targetContent = [] then .error "target_content is required"
  else if 0 < args.startLine ∨ 0 < args.endLine then
    let lines := content.splitOn 10
    let start := args.start
    let stop := args.stop lines.length
    if stop < start ∨ lines.length < start then
      .error ("invalid line range [" ++ toString args.startLine ++ ", " ++ toString args.endLine
      ++ "] for file " ++ args.path ++ " with " ++ toString lines.length ++ " lines")
    else
      let within := "in lines " ++ toString start ++ "-" ++ toString stop ++ " of " ++ args.path
      let replaced := args.replace ("target_content not found " ++ within)
        (fun n => "target_content found " ++ toString n ++ " times " ++ within ++
          "; narrow the line range or set allow_multiple: true")
        ([10].intercalate ((lines.take stop.toNat).drop (start-1).toNat))
      replaced.map (fun out => [10].intercalate (lines.take (start-1).toNat ++
        out :: lines.drop stop.toNat))
  else args.replace ("target_content not found in " ++ args.path)
    (fun n => "target_content found " ++ toString n ++ " times in " ++ args.path
      ++ "; specify start_line and end_line or set allow_multiple: true") content

/-- A content cut in three: what is before the selected lines, these lines, and what is behind
them. -/
structure Selection where
  before : Bytes
  chunk : Bytes
  after : Bytes
  deriving DecidableEq

/-- The lines that a range selects, all without one. -/
def PatchArgs.selection (args : PatchArgs) (content : Bytes) : Option Selection :=
  let lines := content.splitOn 10
  if 0 < args.startLine ∨ 0 < args.endLine then
    if args.stop lines.length < args.start ∨ lines.length < args.start then none
    else some ⟨(lines.take (args.start-1).toNat).flatMap (fun l => l ++ [10]),
      [10].intercalate ((lines.take (args.stop lines.length).toNat).drop (args.start-1).toNat),
      (lines.drop (args.stop lines.length).toNat).flatMap (fun l => 10 :: l)⟩
  else some ⟨[],content,[]⟩

/-- The new content has one occurrence of the target replaced, the only one of the selected lines,
or all of them from the left; what is outside the selected lines stays. -/
structure PatchesOnePlace (args : PatchArgs) (content new : Bytes) (s : Selection)
    (out : Bytes) : Prop where
  selected : args.selection content = some s
  old : content = s.before ++ s.chunk ++ s.after
  new : new = s.before ++ out ++ s.after
  single : args.allowMultiple = false → ∃ k, (∀ j, Stands args.targetContent s.chunk j ↔ j = k)
    ∧ out = s.chunk.take k ++ args.replacementContent ++ s.chunk.drop (k+args.targetContent.length)
  multiple : args.allowMultiple = true → (∃ k, Stands args.targetContent s.chunk k)
    ∧ Replaced args.targetContent args.replacementContent s.chunk out

/-- Whenever a patch succeeds it changes one place and nothing else, or all places where several may
be changed. -/
def PatchesExactly (args : PatchArgs) (content : Bytes) : Prop :=
  ∀ new, patchFile args content = .ok new → ∃ s out, PatchesOnePlace args content new s out

section join
variable {mid : List Bytes}

lemma intercalate_cons (x : Bytes) (xs : List Bytes) :
    [10].intercalate (x :: xs) = x ++ xs.flatMap (fun l => 10 :: l) := by
  induction xs generalizing x with
  | nil => simp
  | cons y xs ih =>
    rw [List.intercalate_cons_cons,ih]
    simp

/-- Lines joined around some lines in the middle. -/
lemma intercalate_parts (xs zs : List Bytes) (h : mid ≠ []) : [10].intercalate (xs ++ mid ++ zs)
    = xs.flatMap (fun l => l ++ [10]) ++ [10].intercalate mid ++ zs.flatMap (fun l => 10 :: l) := by
  obtain ⟨y,ys,rfl⟩ := List.exists_cons_of_ne_nil h
  induction xs with
  | nil =>
    rw [List.nil_append,List.cons_append,intercalate_cons,intercalate_cons]
    simp
  | cons x xs ih =>
    obtain ⟨w,ws,hw⟩ := List.exists_cons_of_ne_nil (show xs ++ (y :: ys) ++ zs ≠ [] by simp)
    rw [List.cons_append,List.cons_append,hw,List.intercalate_cons_cons,← hw,ih]
    simp

end join

section patch
variable {args : PatchArgs} {content new chunk out : Bytes} {s : Selection}

/-- The range, where it is one, lies within the lines. -/
lemma range_within {lines : List Bytes}
    (h : ¬ (args.stop lines.length < args.start ∨ lines.length < args.start)) :
    (args.start-1).toNat < (args.stop lines.length).toNat ∧
    (args.stop lines.length).toNat ≤ lines.length := by
  have hstart : 1 ≤ args.start := by
    unfold PatchArgs.start
    split_ifs <;> omega
  have hstop : args.stop lines.length ≤ lines.length := by
    unfold PatchArgs.stop
    split_ifs <;> omega
  omega

/-- The selected lines and what is around them make up the content. -/
lemma selection_eq (h : args.selection content = some s) :
    content = s.before ++ s.chunk ++ s.after := by
  unfold PatchArgs.selection at h
  dsimp only at h
  split_ifs at h with hrange hbad
  · cases h
    obtain ⟨hlt,hle⟩ := range_within hbad
    have hmid : ((content.splitOn 10).take (args.stop (content.splitOn 10).length).toNat).drop
      (args.start-1).toNat ≠ [] := by
      intro hnil
      have := List.drop_eq_nil_iff.mp hnil
      rw [List.length_take] at this
      omega
    have htake : (content.splitOn 10).take (args.start-1).toNat
        = ((content.splitOn 10).take (args.stop (content.splitOn 10).length).toNat).take
        (args.start-1).toNat := by
      rw [List.take_take,Nat.min_eq_left hlt.le]
    have hlines := intercalate_parts ((content.splitOn 10).take (args.start-1).toNat)
      ((content.splitOn 10).drop (args.stop (content.splitOn 10).length).toNat) hmid
    have hjoin : (content.splitOn 10).take (args.start-1).toNat
        ++ ((content.splitOn 10).take (args.stop (content.splitOn 10).length).toNat).drop
        (args.start-1).toNat
        ++ (content.splitOn 10).drop (args.stop (content.splitOn 10).length).toNat =
        content.splitOn 10 := by
      rw [htake,List.take_append_drop,List.take_append_drop]
    rw [hjoin,List.intercalate_splitOn] at hlines
    exact hlines
  · cases h
    simp

lemma replace_ok {missing : String} {repeated : ℕ → String} :
    args.replace missing repeated chunk = .ok out ↔
    countWord args.targetContent chunk ≠ 0 ∧ (countWord args.targetContent chunk ≤ 1 ∨
      args.allowMultiple = true)
      ∧ out = if args.allowMultiple then
      replaceAll id args.targetContent args.replacementContent chunk
        else replaceFirst args.targetContent args.replacementContent chunk := by
  unfold PatchArgs.replace
  dsimp only
  by_cases hzero : countWord args.targetContent chunk = 0
  · rw [if_pos hzero]
    exact ⟨fun h => (by cases h),fun h => (h.1 hzero).elim⟩
  · rw [if_neg hzero]
    cases hallow : args.allowMultiple with
    | true => simp [hzero,eq_comm]
    | false =>
      by_cases hmany : 1 < countWord args.targetContent chunk
      · rw [if_pos ⟨hmany,rfl⟩]
        refine ⟨fun h => (by cases h),fun h => ?_⟩
        obtain hle | hfalse := h.2.1
        · omega
        · cases hfalse
      · rw [if_neg (fun h => hmany h.1)]
        have hle : countWord args.targetContent chunk ≤ 1 := by omega
        simp [hzero,hle,eq_comm]

lemma map_eq_ok {ε β γ : Type} {x : Except ε β} {f : β → γ} {c : γ} :
    x.map f = .ok c ↔ ∃ b, x = .ok b ∧ c = f b := by
  cases x with
  | error e => exact ⟨fun h => (by cases h),fun ⟨_,h,_⟩ => (by cases h)⟩
  | ok b =>
    refine ⟨fun h => ⟨b,rfl,(Except.ok.inj h).symm⟩,?_⟩
    rintro ⟨b',hb,rfl⟩
    cases hb
    rfl

/-- A patch that succeeds replaces within the selected lines. -/
lemma patchFile_ok : patchFile args content = .ok new ↔ args.targetContent ≠ [] ∧ ∃ s out,
    args.selection content = some s
    ∧ args.replace "" (fun _ => "") s.chunk = .ok out ∧ new = s.before ++ out ++ s.after := by
  unfold patchFile PatchArgs.selection
  dsimp only
  by_cases htarget : args.targetContent = []
  · rw [if_pos htarget]
    exact ⟨fun h => (by cases h),fun h => (h.1 htarget).elim⟩
  · rw [if_neg htarget]
    by_cases hrange : 0 < args.startLine ∨ 0 < args.endLine
    · rw [if_pos hrange,if_pos hrange]
      by_cases hbad : args.stop (content.splitOn 10).length < args.start ∨
        (content.splitOn 10).length < args.start
      · rw [if_pos hbad,if_pos hbad]
        exact ⟨fun h => (by cases h),fun ⟨_,_,_,h,_⟩ => (by cases h)⟩
      · rw [if_neg hbad,if_neg hbad]
        have hjoin : ∀ out : Bytes, [10].intercalate ((content.splitOn 10).take (args.start-1).toNat
            ++ out :: (content.splitOn 10).drop (args.stop (content.splitOn 10).length).toNat)
            = ((content.splitOn 10).take (args.start-1).toNat).flatMap (fun l => l ++ [10]) ++ out
              ++ ((content.splitOn 10).drop (args.stop (content.splitOn 10).length).toNat).flatMap
              (fun l => 10 :: l) := by
          intro out
          have hparts := intercalate_parts ((content.splitOn 10).take (args.start-1).toNat)
            ((content.splitOn 10).drop (args.stop (content.splitOn 10).length).toNat)
            (show [out] ≠ [] by simp)
          simpa using hparts
        rw [map_eq_ok]
        constructor
        · rintro ⟨out,hout,rfl⟩
          exact ⟨htarget,_,out,rfl,replace_ok.mpr (replace_ok.mp hout),hjoin out⟩
        · rintro ⟨_,_,out,hs,hout,rfl⟩
          cases hs
          exact ⟨out,replace_ok.mpr (replace_ok.mp hout),(hjoin out).symm⟩
    · rw [if_neg hrange,if_neg hrange]
      constructor
      · intro h
        exact ⟨htarget,_,new,rfl,replace_ok.mpr (replace_ok.mp h),by simp⟩
      · rintro ⟨_,_,out,hs,hout,rfl⟩
        cases hs
        simpa using replace_ok.mpr (replace_ok.mp hout)

/-- Where the target stands twice in the selected lines, it stands there twice without overlap. -/
def TellsApart (args : PatchArgs) (content : Bytes) : Prop :=
  ∀ s, args.selection content = some s → ∀ j k, Stands args.targetContent s.chunk j →
  Stands args.targetContent s.chunk k → j < k →
    ∃ j' k', Stands args.targetContent s.chunk j' ∧ Stands args.targetContent s.chunk k' ∧
    j'+args.targetContent.length ≤ k'

/-- A patch that succeeds changes one place and nothing else just when several places may be changed
or no copies of the target that all overlap are taken for one. -/
theorem patchesExactly_iff (args : PatchArgs) (content : Bytes) :
    PatchesExactly args content ↔ args.allowMultiple = true ∨ TellsApart args content := by
  constructor
  · intro h
    cases hallow : args.allowMultiple with
    | true => exact .inl rfl
    | false =>
      refine .inr (fun s hs j k hj hk hlt => ?_)
      by_cases htarget : args.targetContent = []
      · exact ⟨j,k,hj,hk,by rw [htarget,List.length_nil]; omega⟩
      · by_contra hnone
        have hzero : countWord args.targetContent s.chunk ≠ 0 :=
          fun h0 => (countWord_eq_zero htarget).mp h0 j hj
        have hone : countWord args.targetContent s.chunk ≤ 1 := by
          by_contra hmany
          exact hnone ((one_lt_countWord htarget).mp (by omega))
        have hreplaced : args.replace "" (fun _ => "") s.chunk = .ok (if args.allowMultiple
            then replaceAll id args.targetContent args.replacementContent s.chunk
            else replaceFirst args.targetContent args.replacementContent s.chunk) :=
              replace_ok.mpr ⟨hzero,.inl hone,rfl⟩
        obtain ⟨s',out,hp⟩ := h _ (patchFile_ok.mpr ⟨htarget,s,_,hs,hreplaced,rfl⟩)
        have hsame : s' = s := Option.some.inj (hp.selected.symm.trans hs)
        obtain ⟨i,hi,_⟩ := hp.single hallow
        rw [hsame] at hi
        have hji := (hi j).mp hj
        have hki := (hi k).mp hk
        omega
  · intro h new hnew
    obtain ⟨htarget,s,out,hs,hout,rfl⟩ := patchFile_ok.mp hnew
    obtain ⟨hzero,hcount,hout⟩ := replace_ok.mp hout
    refine ⟨s,out,⟨hs,selection_eq hs,rfl,fun hallow => ?_,fun hallow => ?_⟩⟩
    · have happart : TellsApart args content := h.resolve_left (by rw [hallow]; simp)
      have hone : countWord args.targetContent s.chunk ≤ 1 :=
        hcount.resolve_right (by rw [hallow]; simp)
      have hnot : ¬ ∃ j k, Stands args.targetContent s.chunk j ∧
        Stands args.targetContent s.chunk k ∧ j+args.targetContent.length ≤ k := by
        rw [← one_lt_countWord htarget]
        omega
      rw [hallow] at hout
      simp only [Bool.false_eq_true,if_false,replaceFirst] at hout
      cases hi : index s.chunk args.targetContent with
      | none => exact (hzero ((countWord_eq_zero htarget).mpr ((index_eq_none htarget).mp hi))).elim
      | some i =>
        rw [hi] at hout
        obtain ⟨hstands,hfirst⟩ := (index_eq_some htarget).mp hi
        refine ⟨i,fun j => ⟨fun hj => ?_,fun hj => hj ▸ hstands⟩,hout⟩
        by_contra hne
        obtain hlt | hlt := Nat.lt_or_gt_of_ne hne
        · exact hfirst j hlt hj
        · exact hnot (happart s hs i j hstands hj hlt)
    · rw [hallow] at hout
      simp only [if_true] at hout
      refine ⟨?_,?_⟩
      · by_contra hno
        exact hzero ((countWord_eq_zero htarget).mpr (fun k hk => hno ⟨k,hk⟩))
      · rw [hout]
        exact replaced_replaceAll htarget

/-- Two copies that overlap are counted as one. -/
theorem not_patchesExactly_overlap :
    ¬ PatchesExactly ⟨"f",ascii "aa",ascii "b",0,0,false⟩ (ascii "aaa") := by
  intro h
  obtain ⟨s,out,hp⟩ := h (ascii "ba") (by decide)
  obtain ⟨k,hk,_⟩ := hp.single rfl
  have hs : s = ⟨[],ascii "aaa",[]⟩ := Option.some.inj (hp.selected.symm.trans (by decide))
  rw [hs] at hk
  have hzero := (hk 0).mp (show ascii "aa" <+: (ascii "aaa").drop 0 by decide)
  have hone := (hk 1).mp (show ascii "aa" <+: (ascii "aaa").drop 1 by decide)
  omega

end patch
end Manvi.DevCouncil
