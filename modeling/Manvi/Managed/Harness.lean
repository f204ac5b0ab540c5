import Manvi.Encoding.Space
import Manvi.Encoding.Spans

/-! The block that carries a harness into the instruction file of a managed run: how it is rendered,
what is recorded of it, and how it is cut out again. -/
namespace Manvi.Managed
open Manvi.Encoding

structure HarnessSection where
  name : Bytes
  order : ℤ
  text : Bytes
deriving DecidableEq, Repr

/-- A harness spec, as far as the block reads it. The digest covers the whole document. -/
structure HarnessSpec where
  name : Bytes
  sections : List HarnessSection
  digest : Bytes
deriving DecidableEq, Repr

def harnessBeginMarker : Bytes := ascii "<!-- BEGIN MANVI HARNESS"

def harnessEndMarker : Bytes := ascii "<!-- END MANVI HARNESS"

def maxInstructionFileBytes : ℕ := 4*2^20

/-- Why a record cannot be acted on. -/
inductive RecordFault
  | version
  | nonce
  | file
  | offset
  | size
  | start
  | block
  | ending
deriving DecidableEq, Repr

/-- The refusals of the functions that write a block and take it out. -/
inductive HarnessFault
  | noInstructionFile (provider : String)
  | noNonce
  | ambiguousSection (name : Bytes)
  | reading (file : String)
  | unrecognisable (why : RecordFault)
  | overBound (file : String) (offset appended : ℕ)
  | gateRefused (name : String)
  | writing (name : String) (mayHaveChanged : Bool)
  | removing (name : String)
  | unknownWrite (file : String)
  | recordUnusable (why : RecordFault)
  | readRefused (file : String) (nonce : Bytes)
  | blockModified (file : String)
  | takingOut (file : String) (cause : List HarnessFault)
  | readingRecord
  | readingHeldRecord
  | readingLeftRecord
  | unreadableRecord
deriving Repr

def harnessInstructionFile : String → Option String
  | "claude" => some "CLAUDE.md"
  | "codex" => some "AGENTS.md"
  | _ => none

def isInstructionFile (name : String) : Bool := name = "CLAUDE.md" ∨ name = "AGENTS.md"

/-- The order of the sections in a normalized spec. -/
def HarnessSection.less (a b : HarnessSection) : Bool :=
  if a.order ≠ b.order then a.order < b.order else a.name < b.name

def HarnessSpec.normalized (spec : HarnessSpec) : List HarnessSection :=
  spec.sections.insertionSort (fun a b => ¬ b.less a)

/-- The sections of a block. A text with a marker in it is refused. -/
def renderSections : List HarnessSection → Except HarnessFault Bytes
  | [] => .ok []
  | sec :: rest =>
    if contains sec.text harnessBeginMarker ∨ contains sec.text harnessEndMarker then
      .error (.ambiguousSection sec.name)
    else (renderSections rest).map (fun body =>
      ascii "\n## " ++ sec.name ++ ascii "\n\n" ++
      (sec.text.rdropWhile (· = 10) ++ ascii "\n") ++ body)

def harnessTag (spec : HarnessSpec) (nonce : Bytes) : Bytes :=
  ascii "nonce=" ++ nonce ++ ascii " name=" ++ spec.name ++ ascii " digest=" ++ spec.digest

def renderHarnessBlock (spec : HarnessSpec) (nonce : Bytes) : Except HarnessFault Bytes :=
  if spec.normalized = [] then .ok [] else (renderSections spec.normalized).map (fun body =>
    harnessBeginMarker ++ ascii " " ++ harnessTag spec nonce ++ ascii " -->\n" ++
    ascii "<!-- Written by Manvi for this managed run and removed when it ends. -->\n" ++ body ++
    (harnessEndMarker ++ ascii " " ++ harnessTag spec nonce ++ ascii " -->\n"))

/-- What stands between the content of a file and the block. -/
def separator (before : Bytes) : Bytes := match before.getLast? with
  | none => []
  | some b => if b ≠ 10 then ascii "\n\n" else ascii "\n"

structure PendingRestore where
  version : ℤ
  nonce : Bytes
  file : String
  existed : Bool
  offset : ℤ
  appended : Bytes
deriving DecidableEq, Repr

def isHex (b : UInt8) : Bool := (48 ≤ b ∧ b ≤ 57) ∨ (97 ≤ b ∧ b ≤ 102)

def nonceForm (nonce : Bytes) : Bool := nonce.length = 32 ∧ nonce.all isHex

/-- How often a text occurs in another, without overlaps. -/
def countOf (data sub : Bytes) : ℕ := (strip sub (data.length+1) data).2

/-- The last line of a text, with its line end. -/
def lastLine (body : Bytes) : Bytes := (body.dropLast.reverse.takeWhile (· ≠ 10)).reverse ++
    body.getLast?.toList

def beginOf (nonce : Bytes) : Bytes :=
  harnessBeginMarker ++ ascii " " ++ (ascii "nonce=" ++ nonce ++ ascii " ")

def endOf (nonce : Bytes) : Bytes :=
  harnessEndMarker ++ ascii " " ++ (ascii "nonce=" ++ nonce ++ ascii " ")

/-- Why a record cannot be acted on, if it cannot. -/
def PendingRestore.valid (p : PendingRestore) : Option RecordFault :=
  let body := p.appended.dropWhile (· = 10)
  if p.version ≠ 1 then some .version
  else if ¬ nonceForm p.nonce then some .nonce
  else if ¬ isInstructionFile p.file then some .file
  else if p.offset < 0 ∨ p.offset > maxInstructionFileBytes then some .offset
  else if p.appended.length = 0 ∨ p.appended.length > maxInstructionFileBytes then some .size
  else if p.appended.length-body.length > 2 then some .start
  else if ¬ (beginOf p.nonce).isPrefixOf body ∨ countOf p.appended (beginOf p.nonce) ≠ 1 ∨
      countOf p.appended (endOf p.nonce) ≠ 1 then some .block
  else if ¬ (endOf p.nonce).isPrefixOf (lastLine body) ∨
    ¬ (ascii "-->\n").isSuffixOf (lastLine body) then some .ending
  else none

def PendingRestore.fitsRestoreBound (p : PendingRestore) : Option HarnessFault :=
  if p.offset+p.appended.length > maxInstructionFileBytes then
    some (.overBound p.file p.offset.toNat p.appended.length) else none

/-- Remove every copy of a span and say how many there were. A copy at the hint is tried first, and
then only what follows it is searched. -/
def cutSpans (content span : Bytes) (hint : ℤ) : Bytes × ℕ :=
  if 0 ≤ hint ∧ hint+span.length ≤ content.length ∧
    (content.drop hint.toNat).take span.length = span then
    let rest := strip span (content.length+1) (content.drop (hint.toNat+span.length))
    (content.take hint.toNat ++ rest.1,rest.2+1)
  else strip span (content.length+1) content

/-- The text by which a line shows that it belongs to a block. -/
def nonceMarker (nonce : Bytes) : Bytes := ascii "MANVI HARNESS nonce=" ++ nonce ++ ascii " "

/-- What is left when the copies of a span are taken out: where one stands at the hint, it and those
after it, and all of them otherwise. -/
inductive LeftOver (span : Bytes) (hint : ℤ) : Bytes → Bytes → Prop
  | hinted {before rest left : Bytes} (hat : (before.length : ℤ) = hint)
      (h : Stripped span rest left) :
      LeftOver span hint (before ++ span ++ rest) (before ++ left)
  | searched {content left : Bytes} (hnot : ∀ before rest, content = before ++ span ++ rest →
      (before.length : ℤ) ≠ hint)
      (h : Stripped span content left) : LeftOver span hint content left

section cutSpans
variable {content span left : Bytes} {hint : ℤ}

lemma hinted_iff : (0 ≤ hint ∧ hint+span.length ≤ content.length ∧
    (content.drop hint.toNat).take span.length = span) ↔
    ∃ before rest, content = before ++ span ++ rest ∧ (before.length : ℤ) = hint := by
  refine ⟨?_,?_⟩
  · intro h
    refine ⟨content.take hint.toNat,content.drop (hint.toNat+span.length),?_,?_⟩
    · have hsplit := List.take_append_drop span.length (content.drop hint.toNat)
      rw [h.2.2,List.drop_drop] at hsplit
      rw [List.append_assoc,hsplit,List.take_append_drop]
    · rw [List.length_take]
      omega
  · rintro ⟨before,rest,hc,hlen⟩
    have hnat : hint.toNat = before.length := by omega
    have hsize := congrArg List.length hc
    simp only [List.length_append] at hsize
    refine ⟨by omega,by omega,?_⟩
    rw [hnat,hc,List.append_assoc,List.drop_left,List.take_left]

lemma LeftOver.unique {left' : Bytes} (h : LeftOver span hint content left)
    (h' : LeftOver span hint content left') :
    left = left' := by
  cases h with
  | @hinted before rest left hat h =>
    generalize hc : before ++ span ++ rest = content at h'
    cases h' with
    | @hinted before' rest' left' hat' h' =>
      rw [List.append_assoc,List.append_assoc] at hc
      obtain ⟨hb,hr⟩ := List.append_inj hc (by omega)
      rw [hb,h.unique (List.append_cancel_left hr ▸ h')]
    | searched hnot _ => exact absurd hat (hnot before rest hc.symm)
  | searched hnot h =>
    cases h' with
    | @hinted before rest left hat h' => exact absurd hat (hnot before rest rfl)
    | searched _ h' => exact h.unique h'

/-- At a hint that a copy of the span stands at, that copy is cut, and then the later ones. -/
lemma cutSpans_hinted (hat : 0 ≤ hint ∧ hint+span.length ≤ content.length ∧
    (content.drop hint.toNat).take span.length = span) : ∃ before rest, content = before ++ span ++
    rest ∧
    (before.length : ℤ) = hint ∧
      cutSpans content span hint = (before ++ (strip span (content.length+1) rest).1,
        (strip span (content.length+1) rest).2+1) := by
  obtain ⟨before,rest,hc,hlen⟩ := hinted_iff.mp hat
  have hnat : hint.toNat = before.length := by omega
  have hdrop : content.drop (hint.toNat+span.length) = rest := by
    rw [hnat,hc,← List.length_append,List.drop_left]
  have htake : content.take hint.toNat = before := by
    rw [hnat,hc,List.append_assoc,List.take_left]
  refine ⟨before,rest,hc,hlen,?_⟩
  simp only [cutSpans,if_pos hat,hdrop,htake]

lemma cutSpans_leftOver (hne : span ≠ []) (content : Bytes) (hint : ℤ) :
    LeftOver span hint content (cutSpans content span hint).1 := by
  by_cases hat : 0 ≤ hint ∧ hint+span.length ≤ content.length ∧
    (content.drop hint.toNat).take span.length = span
  · obtain ⟨before,rest,hc,hlen,hcut⟩ := cutSpans_hinted hat
    rw [hcut]
    have hsize := congrArg List.length hc
    simp only [List.length_append] at hsize
    have hstripped : Stripped span rest (strip span (content.length+1) rest).1 :=
      strip_stripped hne (by omega)
    have hleft : LeftOver span hint (before ++ span ++ rest) (before ++
      (strip span (content.length+1) rest).1) :=
      .hinted hlen hstripped
    rw [← hc] at hleft
    exact hleft
  · rw [cutSpans,if_neg hat]
    refine .searched ?_ (strip_stripped hne (by omega))
    intro before rest hc hlen
    exact hat (hinted_iff.mpr ⟨before,rest,hc,hlen⟩)

/-- Only copies of the span come out. -/
lemma cutSpans_cut (content span : Bytes) (hint : ℤ) :
    Cut span content (cutSpans content span hint).1 (cutSpans content span hint).2 := by
  by_cases hat : 0 ≤ hint ∧ hint+span.length ≤ content.length ∧
    (content.drop hint.toNat).take span.length = span
  · obtain ⟨before,rest,hc,-,hhint⟩ := cutSpans_hinted hat
    rw [hhint]
    have hcut := Cut.copy before (strip_cut span (content.length+1) rest)
    rw [← hc] at hcut
    exact hcut
  · rw [cutSpans,if_neg hat]
    exact strip_cut span (content.length+1) content

lemma cutSpans_none_iff : (cutSpans content span hint).2 = 0 ↔ ¬ span <:+: content := by
  unfold cutSpans
  split_ifs with hat
  · obtain ⟨before,rest,hc,_⟩ := hinted_iff.mp hat
    have hin : span <:+: content := ⟨before,rest,hc.symm⟩
    simp [hin]
  · exact strip_none_iff (by omega)

end cutSpans

section valid
variable {p : PendingRestore}

lemma PendingRestore.appended_ne_nil (h : p.valid = none) : p.appended ≠ [] := by
  intro hnil
  unfold PendingRestore.valid at h
  rw [hnil] at h
  split_ifs at h
  simp at *

end valid

end Manvi.Managed
