import Manvi.Agent.Compaction
import Manvi.Encoding.Utf8

/-! The token estimate of a text made of parts: it is the sum over the parts where each part opens a
line. -/
namespace Manvi.Harness
open Manvi.Encoding Manvi.Agent

def start : TokenScan := ⟨0,false,0,0,none⟩

/-- The estimate of some bytes. -/
def estimate (text : List UInt8) : ℕ :=
  if text = [] then 0 else max (text.foldl TokenScan.step start).tokens 1

lemma estimateTokens_eq (text : String) : estimateTokens text = estimate (bytes text) := by
  rw [estimateTokens,estimate]
  by_cases h : text = ""
  · rw [if_pos h,h]
    rfl
  · have hbytes : bytes text ≠ [] := by
      intro hnil
      refine h (String.toByteArray_inj.mp ?_)
      exact ByteArray.ext (Array.toList_inj.mp hnil)
    rw [if_neg h,if_neg hbytes,start]

section scan
variable {a b : TokenScan} {d : ℕ}

/-- One scan counted so much more than another, and reads on alike. -/
structure Ahead (d : ℕ) (a b : TokenScan) : Prop where
  tokens : a.tokens = b.tokens+d
  inWord : a.inWord = b.inWord
  spaceRun : a.spaceRun = b.spaceRun
  runLen : b.inWord = true → a.runLen = b.runLen
  prev : a.prev = b.prev

lemma Ahead.step (h : Ahead d a b) (c : UInt8) : Ahead d (a.step c) (b.step c) := by
  obtain ⟨tokens,inWord,spaceRun,runLen,prev⟩ := a
  obtain ⟨ht,hw,hs,hr,hp⟩ := h
  dsimp only at ht hw hs hr hp
  rw [ht,hw,hs,hp]
  unfold TokenScan.step
  dsimp only
  split
  · split
    · exact ⟨by simp only; omega,rfl,rfl,fun h => absurd h (by simp),rfl⟩
    · exact ⟨rfl,rfl,rfl,fun h => absurd h (by simp),rfl⟩
  split
  · exact ⟨by simp only; omega,rfl,rfl,fun h => absurd h (by simp),rfl⟩
  split
  · split
    · rename_i hin
      rw [hr hin]
      exact ⟨by simp only; omega,rfl,rfl,fun _ => rfl,rfl⟩
    · exact ⟨by simp only; omega,rfl,rfl,fun _ => rfl,rfl⟩
  · exact ⟨by simp only; omega,rfl,rfl,fun h => absurd h (by simp),rfl⟩

lemma Ahead.scan (h : Ahead d a b) (text : List UInt8) :
    Ahead d (text.foldl TokenScan.step a) (text.foldl TokenScan.step b) := by
  induction text generalizing a b with
  | nil => exact h
  | cons c text ih => exact ih (h.step c)

lemma step_newline (a : TokenScan) : a.step 10 = ⟨a.tokens+1,false,0,a.runLen,some 10⟩ := rfl

/-- A line end makes the scan forget what it read before. -/
lemma scan_newline (a : TokenScan) (text : List UInt8) :
    ((10 :: text).foldl TokenScan.step a).tokens =
    a.tokens+((10 :: text).foldl TokenScan.step start).tokens := by
  have hahead : Ahead a.tokens (a.step 10) (start.step 10) := by
    rw [step_newline,step_newline]
    exact ⟨by simp only [start]; omega,rfl,rfl,fun h => absurd h (by simp),rfl⟩
  have hscan := (hahead.scan text).tokens
  rw [List.foldl_cons,List.foldl_cons]
  omega

/-- A scan that is in no word and no run of spaces counts on as from the start. -/
lemma scan_fresh {b : TokenScan} (hw : b.inWord = false) (hs : b.spaceRun = 0) (text : List UInt8) :
    (text.foldl TokenScan.step b).tokens = b.tokens+(text.foldl TokenScan.step start).tokens := by
  cases text with
  | nil => rfl
  | cons c text =>
    have hahead : Ahead b.tokens (b.step c) (start.step c) := by
      obtain ⟨tokens,inWord,spaceRun,runLen,prev⟩ := b
      dsimp only at hw hs
      subst hw hs
      unfold TokenScan.step start
      dsimp only
      split
      · exact ⟨(Nat.zero_add tokens).symm,rfl,rfl,fun h => absurd h (by simp),rfl⟩
      split
      · exact ⟨Nat.add_comm _ _,rfl,rfl,fun h => absurd h (by simp),rfl⟩
      split
      · exact ⟨Nat.add_comm _ _,rfl,rfl,fun _ => rfl,rfl⟩
      · exact ⟨Nat.add_comm _ _,rfl,rfl,fun h => absurd h (by simp),rfl⟩
    rw [List.foldl_cons,List.foldl_cons,(hahead.scan text).tokens]
    omega

lemma tokens_le_step (a : TokenScan) (c : UInt8) : a.tokens ≤ (a.step c).tokens := by
  unfold TokenScan.step
  dsimp only
  split
  · split
    · exact Nat.le_succ _
    · exact Nat.le_refl _
  split
  · exact Nat.le_succ _
  split
  · split
    · simp only
      omega
    · exact Nat.le_succ _
  · exact Nat.le_succ _

lemma tokens_le_scan (a : TokenScan) (text : List UInt8) :
    a.tokens ≤ (text.foldl TokenScan.step a).tokens := by
  induction text generalizing a with
  | nil => exact Nat.le_refl _
  | cons c text ih => exact (tokens_le_step a c).trans (ih _)

/-- A text that opens a line. -/
def Opens (text : List UInt8) : Prop := text = [] ∨ ∃ rest, text = 10 :: rest

lemma estimate_newline (text : List UInt8) :
    estimate (10 :: text) = ((10 :: text).foldl TokenScan.step start).tokens := by
  have hle := tokens_le_scan (start.step 10) text
  rw [estimate,if_neg (List.cons_ne_nil _ _)]
  refine max_eq_left ?_
  rw [List.foldl_cons]
  exact hle

lemma estimate_append {text rest : List UInt8}
    (htext : (text.foldl TokenScan.step start).tokens ≠ 0) (hrest : Opens rest) :
    estimate (text ++ rest) = estimate text+estimate rest ∧
    ((text ++ rest).foldl TokenScan.step start).tokens ≠ 0 := by
  have hne : text ≠ [] := by
    rintro rfl
    exact htext rfl
  obtain rfl | ⟨rest,rfl⟩ := hrest
  · rw [List.append_nil]
    exact ⟨rfl,htext⟩
  · have hscan : ((text ++ 10 :: rest).foldl TokenScan.step start).tokens
        = (text.foldl TokenScan.step start).tokens+
        ((10 :: rest).foldl TokenScan.step start).tokens := by
      rw [List.foldl_append,scan_newline]
    refine ⟨?_,by omega⟩
    rw [estimate,if_neg (by simp [hne]),hscan,estimate_newline,estimate,if_neg hne]
    omega

end scan
end Manvi.Harness
