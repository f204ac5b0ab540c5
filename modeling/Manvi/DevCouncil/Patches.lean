import Manvi.DevCouncil.AddedLines

/-! Patches as git writes them without context, and what the scan reads of them. -/
namespace Manvi.DevCouncil
open Manvi.Encoding
open Manvi.Computer (digitBytes decimalValue)

/-- The escapes of one letter that git writes. -/
def gitLetters : List (UInt8 × UInt8) :=
  [(7,97),(8,98),(9,116),(10,110),(11,118),(12,102),(13,114),(34,34),(92,92)]

/-- How a byte of a name is escaped, where it is. With core.quotePath all bytes outside ASCII
are. -/
def cEscaped (quotePath : Bool) (c : UInt8) : Option Bytes := match gitLetters.lookup c with
  | some l => some [92,l]
  | none => if c < 32 ∨ c = 127 ∨ (quotePath = true ∧ 128 ≤ c) then
    some [92,48+c/64,48+c/8%8,48+c%8] else none

/-- A name is put in quotes where one of its bytes is escaped. -/
def needsQuote (quotePath : Bool) (name : Bytes) : Bool :=
  name.any (fun c => (cEscaped quotePath c).isSome)

def escapedName (quotePath : Bool) (name : Bytes) : Bytes :=
  name.flatMap (fun c => (cEscaped quotePath c).getD [c])

/-- A name with a/ or b/ before it. -/
def nameLabel (quotePath : Bool) (side name : Bytes) : Bytes :=
  if needsQuote quotePath name then 34 :: (escapedName quotePath (side ++ name) ++ [34])
    else side ++ name

/-- A line without its LF. -/
abbrev LineText := {l : Bytes // 10 ∉ l}

/-- A hunk: the lines it removes and adds, and whether the last of each has no LF. -/
structure Hunk where
  oldStart : ℕ
  newStart : ℕ
  heading : LineText
  removed : List LineText
  oldOpen : Bool
  added : List LineText
  newOpen : Bool

inductive ExtendedHeader where
  | oldMode (mode : List (Fin 8))
  | newMode (mode : List (Fin 8))
  | deletedFileMode (mode : List (Fin 8))
  | newFileMode (mode : List (Fin 8))
  | index (old new : List (Fin 16)) (mode : Option (List (Fin 8)))

/-- Which sides of a change there are. -/
inductive Sides where
  | created
  | deleted
  | modified
  deriving Repr, DecidableEq

/-- The hunks of a text: a new file removes no line, and a deleted one adds none. -/
structure TextChange where
  sides : Sides
  hunks : List Hunk
  created : sides = .created → ∀ h ∈ hunks, h.removed = []
  deleted : sides = .deleted → ∀ h ∈ hunks, h.added = []

inductive ChangeContent where
  /-- Only the mode changed, or the file is empty. -/
  | same
  | binary (sides : Sides)
  | text (change : TextChange)

structure FileChange where
  name : Bytes
  extended : List ExtendedHeader
  content : ChangeContent

section render
variable (quotePath : Bool)

def octalText (mode : List (Fin 8)) : Bytes := mode.map (fun d => UInt8.ofNat (48+d.val))

def hexText (id : List (Fin 16)) : Bytes :=
  id.map (fun d => UInt8.ofNat (if d.val < 10 then 48+d.val else 87+d.val))

def ExtendedHeader.render : ExtendedHeader → Bytes
  | .oldMode mode => ascii "old mode " ++ octalText mode
  | .newMode mode => ascii "new mode " ++ octalText mode
  | .deletedFileMode mode => ascii "deleted file mode " ++ octalText mode
  | .newFileMode mode => ascii "new file mode " ++ octalText mode
  | .index old new mode => ascii "index " ++ hexText old ++ ascii ".." ++ hexText new
      ++ (mode.map (fun m => 32 :: octalText m)).getD []

/-- The label of the old side and of the new one. -/
def oldLabel (sides : Sides) (name : Bytes) : Bytes :=
  if sides = .created then ascii "/dev/null" else nameLabel quotePath (ascii "a/") name

def newLabel (sides : Sides) (name : Bytes) : Bytes :=
  if sides = .deleted then ascii "/dev/null" else nameLabel quotePath (ascii "b/") name

/-- A tab ends a label with a space in it. -/
def withTab (label : Bytes) : Bytes := if 32 ∈ label then label ++ [9] else label

def noNewline : Bytes := ascii "\\ No newline at end of file"

/-- Lines with a sign, and the mark of a last line without LF. -/
def signedLines (sign : UInt8) (lines : List LineText) (isOpen : Bool) : List Bytes :=
  lines.map (fun l => sign :: l.val) ++ (if lines ≠ [] ∧ isOpen = true then [noNewline] else [])

def countText (n : ℕ) : Bytes := if n = 1 then [] else 44 :: digitBytes n

def Hunk.header (h : Hunk) : Bytes :=
  ascii "@@ " ++ 45 :: (digitBytes h.oldStart ++ countText h.removed.length ++
    32 :: 43 :: (digitBytes h.newStart
    ++ countText h.added.length ++ (ascii " @@" ++ if h.heading.val = [] then
      [] else 32 :: h.heading.val)))

def Hunk.render (h : Hunk) : List Bytes :=
  h.header :: (signedLines 45 h.removed h.oldOpen ++ signedLines 43 h.added h.newOpen)

def ChangeContent.render (name : Bytes) : ChangeContent → List Bytes
  | .same => []
  | .binary sides => [ascii "Binary files " ++ oldLabel quotePath sides name ++ ascii " and " ++
    newLabel quotePath sides name ++ ascii " differ"]
  | .text change => (ascii "--- " ++ withTab (oldLabel quotePath change.sides name))
      :: (ascii "+++ " ++ withTab
        (newLabel quotePath change.sides name)) :: change.hunks.flatMap Hunk.render

def FileChange.render (c : FileChange) : List Bytes :=
  (ascii "diff --git " ++ nameLabel quotePath (ascii "a/") c.name ++
    32 :: nameLabel quotePath (ascii "b/") c.name)
    :: (c.extended.map ExtendedHeader.render ++ c.content.render quotePath c.name)

/-- The patch of some changes. -/
def renderPatch (changes : List FileChange) : Bytes :=
  (changes.flatMap (FileChange.render quotePath)).flatMap (fun l => l ++ [10])

end render

/-- The lines that a change adds. -/
def ChangeContent.added : ChangeContent → List Bytes
  | .text change => change.hunks.flatMap (fun h => h.added.map Subtype.val)
  | _ => []

/-- The lines that changes add, each with the path of its file. -/
def addedLines (changes : List FileChange) : List (Bytes × Bytes) :=
  changes.flatMap (fun c => c.content.added.map (fun l => (c.name,l)))

/-- The scan succeeds and visits just the added lines in order. -/
def ReadsExactly (quotePath : Bool) (changes : List FileChange) : Prop :=
  scanAddedLines (renderPatch quotePath changes) = (addedLines changes,none)

/-- Bytes that are the UTF-8 of some characters. -/
def IsUtf8 (bytes : Bytes) : Prop := ∃ cs, bytes = utf8Bytes cs

section quoting
variable {quotePath : Bool} {name : Bytes} {c : UInt8} {e : Bytes}

/-- What holds of the bytes with every two hexadecimal digits holds of every byte. -/
lemma forall_byte {p : UInt8 → Prop} (h : ∀ a b : Fin 16, p (UInt8.ofNat (16*a+b))) (c : UInt8) :
    p c := by
  have hc := h ⟨c.toNat/16,by have := c.toNat_lt; omega⟩ ⟨c.toNat%16,Nat.mod_lt _ (by decide)⟩
  rwa [Nat.div_add_mod,UInt8.ofNat_toNat] at hc

lemma letter_unescape {l : UInt8} (h : gitLetters.lookup c = some l) :
    letterEscapes.lookup l = some c := by
  have hall : ∀ c : UInt8, (gitLetters.lookup c).all (fun l => letterEscapes.lookup l = some c) =
    true := forall_byte (by decide)
  have hc := hall c
  rw [h] at hc
  simpa using hc

lemma octal_unescape : ∀ c : UInt8, letterEscapes.lookup (48+c/64) = none ∧
    isOctal (48+c/64) = true ∧ isOctal (48+c/8%8) = true
    ∧ isOctal (48+c%8) = true ∧
    64*((48+c/64).toNat-48)+8*((48+c/8%8).toNat-48)+((48+c%8).toNat-48) = c.toNat :=
  forall_byte (by decide)

/-- An escape reads back as its byte. -/
lemma unescape_escaped (h : cEscaped quotePath c = some e) (rest : Bytes) :
    ∃ t, e = 92 :: t ∧ unescape (t ++ rest) = some ([c],rest) := by
  unfold cEscaped at h
  cases hl : gitLetters.lookup c with
  | some l =>
    rw [hl] at h
    refine ⟨[l],(Option.some.inj h).symm,?_⟩
    simp only [List.cons_append,List.nil_append,unescape,letter_unescape hl]
  | none =>
    rw [hl] at h
    obtain ⟨hletter,hfirst,hsecond,hthird,hvalue⟩ := octal_unescape c
    by_cases hcond : c < 32 ∨ c = 127 ∨ (quotePath = true ∧ 128 ≤ c)
    · rw [if_pos hcond] at h
      refine ⟨[48+c/64,48+c/8%8,48+c%8],(Option.some.inj h).symm,?_⟩
      have hhex : ¬ 48+c/64 = 120 := by
        intro he
        rw [he] at hfirst
        cases hfirst
      have hshort : ¬ (48+c/64 = 117 ∨ 48+c/64 = 85) := by
        rintro (he | he)
        · rw [he] at hfirst
          cases hfirst
        · rw [he] at hfirst
          cases hfirst
      have hle := c.toNat_lt
      have hbound : isOctal (48+c/8%8) = true ∧ isOctal (48+c%8) = true
          ∧ 64*((48+c/64).toNat-48)+8*((48+c/8%8).toNat-48)+((48+c%8).toNat-48) ≤ 255 :=
          ⟨hsecond,hthird,by omega⟩
      simp only [List.cons_append,List.nil_append,unescape,hletter,if_neg hhex,if_neg hshort,
        if_pos hfirst]
      rw [if_pos hbound,hvalue,UInt8.ofNat_toNat]
    · rw [if_neg hcond] at h
      cases h

lemma cEscaped_ascii : ∀ c : UInt8, c < 128 → (cEscaped quotePath c = none → c ≠ 34 ∧ c ≠ 92 ∧
    c ≠ 10 ∧ c ≠ 9) := by
  cases quotePath with
  | false => exact forall_byte (by decide)
  | true => exact forall_byte (by decide)

lemma cEscaped_high : ∀ c : UInt8, 128 ≤ c → cEscaped false c = none ∧
    (cEscaped true c).isSome = true ∧ c ≠ 34 ∧ c ≠ 10 :=
  forall_byte (by decide)

@[simp] lemma escapedName_cons (quotePath : Bool) (c : UInt8) (name : Bytes) :
    escapedName quotePath (c :: name) = (cEscaped quotePath c).getD [c] ++
    escapedName quotePath name := rfl

@[simp] lemma escapedName_append (quotePath : Bool) (a b : Bytes) :
    escapedName quotePath (a ++ b) = escapedName quotePath a ++ escapedName quotePath b :=
  List.flatMap_append

/-- What a byte of a name becomes starts with a byte that is read on its own. -/
lemma unquoteBody_escaped {n : ℕ} (h : c < 128 ∨ (cEscaped quotePath c).isSome = true)
    (rest : Bytes) :
    unquoteBody (n+1) ((cEscaped quotePath c).getD [c] ++ rest) = (unquoteBody n rest).map (fun e =>
      (c :: e.1,e.2)) := by
  cases he : cEscaped quotePath c with
  | some e =>
    obtain ⟨t,rfl,hread⟩ := unescape_escaped he rest
    exact unquoteBody_char (by decide) (by decide) (unquoteChar_escape hread) n
  | none =>
    rw [he] at h
    have hlow : c < 128 := h.resolve_right (by simp)
    obtain ⟨hquote,hescape,hline,_⟩ := cEscaped_ascii c hlow he
    exact unquoteBody_char hquote hline (unquoteChar_plain hquote hescape hlow) n

/-- With core.quotePath a name in quotes is read as it is. -/
lemma unquoteBody_full {n : ℕ} (hn : name.length < n) :
    unquoteBody n (escapedName true name ++ [34]) = some (name,[]) := by
  induction name generalizing n with
  | nil =>
    obtain ⟨n,rfl⟩ : ∃ m, n = m+1 := ⟨n-1,by omega⟩
    rfl
  | cons c name ih =>
    obtain ⟨n,rfl⟩ : ∃ m, n = m+1 := ⟨n-1,by omega⟩
    rw [List.length_cons] at hn
    have hc : c < 128 ∨ (cEscaped true c).isSome = true := by
      by_cases hlow : c < 128
      · exact .inl hlow
      · exact .inr (cEscaped_high c (UInt8.not_lt.mp hlow)).2.1
    rw [escapedName_cons,List.append_assoc,unquoteBody_escaped hc,ih (by omega)]
    rfl

/-- A byte of a name that is not escaped stays, and bytes below 128 give bytes below 128 first. -/
lemma escaped_low (h : c < 128) {x : UInt8} {t : Bytes}
    (he : (cEscaped false c).getD [c] = x :: t) : x < 128 := by
  have hall : ∀ c : UInt8, (decide (128 ≤ c) || ((cEscaped false c).getD [c]).head?.all
    (fun x => x < 128)) = true :=
    forall_byte (by decide)
  have hc := hall c
  rw [he] at hc
  simpa [UInt8.not_le.mpr h] using hc

/-- Bytes outside ASCII stand at the start of a name just when they stand at the start of what it
becomes. -/
lemma high_prefix_iff {a : Bytes} (ha : ∀ x ∈ a, 128 ≤ x) (name : Bytes) :
    a <+: escapedName false name ++ [34] ↔ a <+: name := by
  induction a generalizing name with
  | nil => exact ⟨fun _ => List.nil_prefix,fun _ => List.nil_prefix⟩
  | cons x a ih =>
    rw [List.forall_mem_cons] at ha
    cases name with
    | nil =>
      constructor
      · intro h
        have : x = 34 := (List.cons_prefix_cons.mp h).1
        exact absurd ha.1 (by rw [this]; decide)
      · intro h
        exact absurd (List.prefix_nil.mp h) (by simp)
    | cons c name =>
      rw [escapedName_cons]
      by_cases hc : 128 ≤ c
      · rw [(cEscaped_high c hc).1]
        simp only [Option.getD_none,List.cons_append,List.nil_append,List.cons_prefix_cons,ih ha.2]
      · have hlow : c < 128 := UInt8.not_le.mp hc
        constructor
        · intro h
          cases he : (cEscaped false c).getD [c] with
          | nil =>
            have hsome : (cEscaped false c).getD [c] ≠ [] := by
              cases hesc : cEscaped false c with
              | none => simp
              | some e =>
                obtain ⟨t,rfl,_⟩ := unescape_escaped hesc []
                simp
            exact absurd he hsome
          | cons y t =>
            have hy := escaped_low hlow he
            rw [he,List.cons_append,List.cons_append,List.cons_prefix_cons] at h
            rw [← h.1] at hy
            exact absurd ha.1 (UInt8.not_le.mpr hy)
        · intro h
          exact absurd ((List.cons_prefix_cons.mp h).1 ▸ ha.1) hc

lemma le_ofNat {n : ℕ} (hlow : 128 ≤ n) (hhigh : n < 256) : 128 ≤ UInt8.ofNat n := by
  rw [UInt8.le_iff_toNat_le,UInt8.toNat_ofNat_of_lt' hhigh]
  exact hlow

/-- The bytes of a character are all below 128 or all not. -/
lemma encode_high {r : Char} {rest : Bytes} (h : String.utf8EncodeChar r = c :: rest)
    (hc : 128 ≤ c) :
    ∀ x ∈ String.utf8EncodeChar r, 128 ≤ x := by
  unfold String.utf8EncodeChar at h ⊢
  dsimp only at h ⊢
  split_ifs at h ⊢ with hone htwo hthree
  · have hval : UInt8.ofNat r.val.toNat = c := (List.cons.inj h).1
    rw [← hval,UInt8.le_iff_toNat_le,
      UInt8.toNat_ofNat_of_lt' (by show r.val.toNat < 256; omega)] at hc
    have : (128 : UInt8).toNat = 128 := rfl
    omega
  · intro x hx
    simp only [List.mem_cons,List.not_mem_nil,or_false] at hx
    obtain rfl | rfl := hx <;> exact le_ofNat (by omega) (by omega)
  · intro x hx
    simp only [List.mem_cons,List.not_mem_nil,or_false] at hx
    obtain rfl | rfl | rfl := hx <;> exact le_ofNat (by omega) (by omega)
  · intro x hx
    simp only [List.mem_cons,List.not_mem_nil,or_false] at hx
    obtain rfl | rfl | rfl | rfl := hx <;> exact le_ofNat (by omega) (by omega)

lemma encode_ascii : ∀ c : UInt8, c < 128 → String.utf8EncodeChar (Char.ofNat c.toNat) = [c] :=
  forall_byte (by decide)

lemma escapedName_high {a : Bytes} (ha : ∀ x ∈ a, 128 ≤ x) : escapedName false a = a := by
  induction a with
  | nil => rfl
  | cons x a ih =>
    rw [List.forall_mem_cons] at ha
    rw [escapedName_cons,(cEscaped_high x ha.1).1,ih ha.2]
    rfl

/-- Without core.quotePath a name in quotes is read as its characters. -/
lemma unquoteBody_raw {n : ℕ} (hn : name.length < n) :
    unquoteBody n (escapedName false name ++ [34]) = some (utf8Bytes (runes name),[]) := by
  induction hlen : name.length using Nat.strong_induction_on generalizing name n with
  | _ len ih =>
    obtain ⟨n,rfl⟩ : ∃ m, n = m+1 := ⟨n-1,by omega⟩
    cases name with
    | nil => rfl
    | cons c bs =>
      rw [List.length_cons] at hlen hn
      by_cases hc : 128 ≤ c
      · have htext : escapedName false (c :: bs) ++ [34] = c :: (escapedName false bs ++ [34]) := by
          rw [escapedName_cons,(cEscaped_high c hc).1]
          rfl
        obtain ⟨_,_,hquote,hline⟩ := cEscaped_high c hc
        cases hr : firstRune (c :: bs) with
        | some r =>
          obtain ⟨rest,hrest⟩ := firstRune_iff.mp hr
          obtain ⟨tail,htail⟩ : ∃ tail, String.utf8EncodeChar r = c :: tail := by
            cases he : String.utf8EncodeChar r with
            | nil =>
              have hpos := r.utf8Size_pos
              rw [← String.length_utf8EncodeChar,he] at hpos
              cases hpos
            | cons x tail =>
              rw [he,List.cons_append] at hrest
              exact ⟨tail,by rw [(List.cons.inj hrest).1]⟩
          have hhigh := encode_high htail hc
          have hsplit : escapedName false (c :: bs) ++ [34] = String.utf8EncodeChar r ++
            (escapedName false rest ++ [34]) := by
            rw [hrest,escapedName_append,escapedName_high hhigh,List.append_assoc]
          have hfirst : firstRune (c :: (escapedName false bs ++ [34])) = some r := by
            rw [← htext,hsplit]
            exact firstRune_encode r _
          have hdrop : (c :: (escapedName false bs ++ [34])).drop r.utf8Size =
            escapedName false rest ++ [34] := by
            rw [← htext,hsplit,← String.length_utf8EncodeChar,List.drop_left]
          have hless : rest.length < len := by
            have := congrArg List.length hrest
            have hpos := r.utf8Size_pos
            rw [List.length_append,String.length_utf8EncodeChar,List.length_cons] at this
            omega
          have hread := ih rest.length hless (n := n) (by omega) rfl
          rw [htext,unquoteBody_char hquote hline (unquoteChar_rune hc hfirst),hdrop,hread,hrest,
            runes_encode]
          rfl
        | none =>
          have hfirst : firstRune (c :: (escapedName false bs ++ [34])) = none := by
            cases hsome : firstRune (c :: (escapedName false bs ++ [34])) with
            | none => rfl
            | some r =>
              obtain ⟨rest,hrest⟩ := firstRune_iff.mp hsome
              cases he : String.utf8EncodeChar r with
              | nil =>
                have hpos := r.utf8Size_pos
                rw [← String.length_utf8EncodeChar,he] at hpos
                cases hpos
              | cons x tail =>
                have hx : x = c := by
                  rw [he,List.cons_append] at hrest
                  exact (List.cons.inj hrest).1.symm
                have hhigh := encode_high he (hx ▸ hc)
                have hprefix : String.utf8EncodeChar r <+: escapedName false (c :: bs) ++ [34] := by
                  rw [htext,hrest]
                  exact List.prefix_append _ _
                obtain ⟨more,hmore⟩ := (high_prefix_iff hhigh (c :: bs)).mp hprefix
                have := firstRune_iff.mpr ⟨more,hmore.symm⟩
                rw [hr] at this
                cases this
          rw [htext,unquoteBody_char hquote hline (unquoteChar_stray hc hfirst),
            ih bs.length (by omega) (by omega) rfl,runes_none hr]
          rfl
      · have hlow : c < 128 := UInt8.not_le.mp hc
        have hrunes : runes (c :: bs) = Char.ofNat c.toNat :: runes bs := by
          have := runes_encode (Char.ofNat c.toNat) bs
          rwa [encode_ascii c hlow] at this
        rw [escapedName_cons,List.append_assoc,unquoteBody_escaped (.inl hlow),
          ih bs.length (by omega) (by omega) rfl,hrunes]
        simp only [Option.map_some,utf8Bytes,List.flatMap_cons,encode_ascii c hlow]
        rfl

end quoting
end Manvi.DevCouncil
