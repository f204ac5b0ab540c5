import Manvi.Managed.Harness

/-! The lines of a harness block: its opening marker stands at its front and nowhere else, so that a
block is found in a file only where it was put. -/
namespace Manvi.Managed
open Manvi.Encoding

def isNameStart (b : UInt8) : Bool := (97 ≤ b ∧ b ≤ 122) ∨ (48 ≤ b ∧ b ≤ 57)

def isNameByte (b : UInt8) : Bool := isNameStart b ∨ b = 95 ∨ b = 45

def maxSkillNameLen : ℕ := 64

/-- The names that a spec, a section or a skill may have. -/
def validName (name : Bytes) : Bool :=
  name.length ≤ maxSkillNameLen ∧ name.head?.any isNameStart ∧ name.all isNameByte

/-- A spec as it is resolved: its names are checked, and its digest is a hash in hexadecimal. -/
structure HarnessSpec.Validated (spec : HarnessSpec) : Prop where
  name : validName spec.name = true
  sections : ∀ sec ∈ spec.sections, validName sec.name = true
  digest : spec.digest.all isHex = true

section letters
variable {b : UInt8} {name nonce : Bytes}

lemma isHex_letter (h : isHex b = true) : b ≠ 60 ∧ b ≠ 10 := by
  refine ⟨?_,?_⟩
  · intro hb
    subst hb
    cases h
  · intro hb
    subst hb
    cases h

lemma validName_letter (h : validName name = true) (hb : b ∈ name) : b ≠ 60 ∧ b ≠ 10 := by
  simp only [validName,Bool.decide_and,Bool.and_eq_true] at h
  have hbyte : isNameByte b = true := List.all_eq_true.mp (by simpa using h.2.2) b hb
  refine ⟨?_,?_⟩
  · intro hb
    subst hb
    cases hbyte
  · intro hb
    subst hb
    cases hbyte

/-- The letters of a nonce open no marker and end no line. -/
lemma nonceForm_letter (h : nonceForm nonce = true) (hb : b ∈ nonce) : b ≠ 60 ∧ b ≠ 10 := by
  simp only [nonceForm,Bool.decide_and,Bool.and_eq_true] at h
  exact isHex_letter (List.all_eq_true.mp (by simpa using h.2) b hb)

lemma ascii_letter {text : String} (h : (ascii text).all (fun b => b ≠ 60 ∧ b ≠ 10) = true)
    (hb : b ∈ ascii text) :
    b ≠ 60 ∧ b ≠ 10 := by
  simpa using List.all_eq_true.mp h b hb

end letters

lemma harnessTag_letter {spec : HarnessSpec} {nonce : Bytes} (hspec : spec.Validated)
    (hnonce : nonceForm nonce = true)
    {b : UInt8} (hb : b ∈ harnessTag spec nonce) : b ≠ 60 ∧ b ≠ 10 := by
  simp only [harnessTag,List.mem_append] at hb
  obtain ((((hb | hb) | hb) | hb) | hb) | hb := hb
  · exact ascii_letter (by decide) hb
  · exact nonceForm_letter hnonce hb
  · exact ascii_letter (by decide) hb
  · exact validName_letter hspec.name hb
  · exact ascii_letter (by decide) hb
  · exact isHex_letter (List.all_eq_true.mp hspec.digest b hb)

lemma harnessBeginMarker_eq :
    harnessBeginMarker = 60 :: ascii "!-- BEGIN MANVI HARNESS" := by decide

lemma newline_notMem_begin : (10 : UInt8) ∉ harnessBeginMarker := by decide

lemma angle_mem_begin : (60 : UInt8) ∈ harnessBeginMarker := by decide

/-- The marker is not in a line that has no angle bracket. -/
lemma begin_not_infix_of_notMem {text : Bytes} (h : (60 : UInt8) ∉ text) :
    ¬ harnessBeginMarker <:+: text :=
  fun hin => h (hin.subset angle_mem_begin)

lemma begin_not_infix_comment :
    ¬ harnessBeginMarker <:+: ascii "<!-- Written by Manvi for this managed run and removed when it ends. -->" := by
  rw [← contains_iff]
  decide

/-- The marker is not in the closing line. -/
lemma begin_not_infix_end {rest : Bytes} (h : (60 : UInt8) ∉ rest) :
    ¬ harnessBeginMarker <:+: harnessEndMarker ++ rest := by
  have hend : harnessEndMarker = 60 :: ascii "!-- END MANVI HARNESS" := by decide
  have htail : (60 : UInt8) ∉ ascii "!-- END MANVI HARNESS" := by decide
  intro hin
  rw [hend,List.cons_append,List.infix_cons_iff] at hin
  cases hin with
  | inr hin => exact begin_not_infix_of_notMem (by simp [htail,h]) hin
  | inl hpre =>
    have htake := hpre.take 6
    rw [← List.cons_append,← hend,List.take_append_of_le_length (by decide)] at htake
    revert htake
    decide

section sections

/-- No line of the sections opens a block, and neither does what follows them. -/
lemma begin_not_infix_sections {secs : List HarnessSection} {body rest : Bytes}
    (h : renderSections secs = .ok body)
    (hnames : ∀ sec ∈ secs, validName sec.name = true) (hrest : ¬ harnessBeginMarker <:+: rest) :
    ¬ harnessBeginMarker <:+: body ++ rest := by
  induction secs generalizing body with
  | nil =>
    cases h
    exact hrest
  | cons sec secs ih =>
    unfold renderSections at h
    split_ifs at h with hmark
    cases hbody : renderSections secs with
    | error e =>
      rw [hbody] at h
      cases h
    | ok tail =>
      rw [hbody] at h
      cases h
      rw [not_or] at hmark
      have htext : ¬ harnessBeginMarker <:+: sec.text := fun hin => hmark.1 (contains_iff.mpr hin)
      have hname : (60 : UInt8) ∉ ascii "## " ++ sec.name := by
        rw [List.mem_append,not_or]
        refine ⟨by decide,?_⟩
        intro hmem
        exact (validName_letter (hnames sec List.mem_cons_self) hmem).1 rfl
      have hlines : ascii "\n## " ++ sec.name ++ ascii "\n\n" ++
        (sec.text.rdropWhile (· = 10) ++ ascii "\n") ++ tail ++ rest =
          [] ++ 10 :: ((ascii "## " ++ sec.name) ++
            10 :: ([] ++ 10 :: (sec.text.rdropWhile (· = 10) ++ 10 :: (tail ++ rest)))) := by
        have hopen : ascii "\n## " = 10 :: ascii "## " := by decide
        have hgap : ascii "\n\n" = [10,10] := by decide
        have hline : ascii "\n" = [10] := by decide
        rw [hopen,hgap,hline]
        simp
      intro hin
      have hin' : harnessBeginMarker <:+: ascii "\n## " ++ sec.name ++ ascii "\n\n" ++
          (sec.text.rdropWhile (· = 10) ++ ascii "\n") ++ tail ++ rest := hin
      rw [hlines] at hin'
      cases infix_append_cons newline_notMem_begin hin' with
      | inl h => exact begin_not_infix_of_notMem (by simp) h
      | inr h =>
        cases infix_append_cons newline_notMem_begin h with
        | inl h => exact begin_not_infix_of_notMem hname h
        | inr h =>
          cases infix_append_cons newline_notMem_begin h with
          | inl h => exact begin_not_infix_of_notMem (by simp) h
          | inr h =>
            cases infix_append_cons newline_notMem_begin h with
            | inl h => exact htext (h.trans (List.rdropWhile_prefix _ _).isInfix)
            | inr h => exact ih hbody (fun sec hsec => hnames sec (List.mem_cons_of_mem _ hsec)) h

end sections

/-- A block: the opening marker of its nonce in front, a line end at the back, and no second opening
marker. -/
structure Framed (nonce block : Bytes) : Prop where
  opens : beginOf nonce <+: block
  closes : ∃ lines, block = lines ++ [10]
  once : ¬ harnessBeginMarker <:+: block.tail

lemma framed_of_render {spec : HarnessSpec} {nonce block : Bytes} (hspec : spec.Validated)
    (hnonce : nonceForm nonce = true)
    (h : renderHarnessBlock spec nonce = .ok block) (hne : block ≠ []) : Framed nonce block := by
  unfold renderHarnessBlock at h
  split_ifs at h with hempty
  · cases h
    exact absurd rfl hne
  · cases hbody : renderSections spec.normalized with
    | error e =>
      rw [hbody] at h
      cases h
    | ok body =>
      rw [hbody] at h
      cases h
      have htag : (60 : UInt8) ∉ harnessTag spec nonce :=
        fun hmem => (harnessTag_letter hspec hnonce hmem).1 rfl
      have hnames : ∀ sec ∈ spec.normalized, validName sec.name = true := by
        intro sec hsec
        exact hspec.sections sec ((List.perm_insertionSort _ _).mem_iff.mp hsec)
      have hclose : ascii " -->\n" = ascii " -->" ++ [10] := by decide
      have hcomment : ascii "<!-- Written by Manvi for this managed run and removed when it ends. -->\n" =
          ascii "<!-- Written by Manvi for this managed run and removed when it ends. -->" ++
          [10] := by decide
      have hend : ¬ harnessBeginMarker <:+: harnessEndMarker ++ ascii " " ++
        harnessTag spec nonce ++ ascii " -->\n" := by
        rw [List.append_assoc,List.append_assoc]
        refine begin_not_infix_end ?_
        rw [List.mem_append,List.mem_append]
        rintro (h | h | h)
        · exact absurd h (by decide)
        · exact htag h
        · exact absurd h (by decide)
      refine ⟨?_,?_,?_⟩
      · refine ⟨ascii "name=" ++ spec.name ++ ascii " digest=" ++ spec.digest ++ ascii " -->\n" ++
          ascii "<!-- Written by Manvi for this managed run and removed when it ends. -->\n" ++
          body ++
          (harnessEndMarker ++ ascii " " ++ harnessTag spec nonce ++ ascii " -->\n"),?_⟩
        have hspace : ascii " name=" = ascii " " ++ ascii "name=" := by decide
        simp only [beginOf,harnessTag,hspace,List.append_assoc]
      · refine ⟨harnessBeginMarker ++ ascii " " ++ harnessTag spec nonce ++ ascii " -->\n" ++
          ascii "<!-- Written by Manvi for this managed run and removed when it ends. -->\n" ++
          body ++
          (harnessEndMarker ++ ascii " " ++ harnessTag spec nonce ++ ascii " -->"),?_⟩
        rw [hclose]
        simp only [List.append_assoc]
      · have hlines : (harnessBeginMarker ++ ascii " " ++ harnessTag spec nonce ++ ascii " -->\n" ++
            ascii "<!-- Written by Manvi for this managed run and removed when it ends. -->\n" ++
            body ++
            (harnessEndMarker ++ ascii " " ++ harnessTag spec nonce ++ ascii " -->\n")).tail =
            (ascii "!-- BEGIN MANVI HARNESS" ++ ascii " " ++ harnessTag spec nonce ++
              ascii " -->") ++ 10 ::
              (ascii "<!-- Written by Manvi for this managed run and removed when it ends. -->" ++ 10 ::
                (body ++ (harnessEndMarker ++ ascii " " ++ harnessTag spec nonce ++
                  ascii " -->\n"))) := by
          rw [harnessBeginMarker_eq,hcomment]
          nth_rewrite 1 [hclose]
          simp
        rw [hlines]
        intro hin
        cases infix_append_cons newline_notMem_begin hin with
        | inl h =>
          refine begin_not_infix_of_notMem ?_ h
          simp only [List.mem_append,not_or]
          exact ⟨⟨⟨by decide,by decide⟩,htag⟩,by decide⟩
        | inr h =>
          cases infix_append_cons newline_notMem_begin h with
          | inl h => exact begin_not_infix_comment h
          | inr h => exact begin_not_infix_sections hbody hnames hend h

section places
variable {nonce other block sep pre post x y : Bytes}

lemma beginOf_eq (nonce : Bytes) :
    beginOf nonce = 60 :: (ascii "!-- BEGIN MANVI HARNESS" ++ ascii " " ++
      (ascii "nonce=" ++ nonce ++ ascii " ")) := by
  rw [beginOf,harnessBeginMarker_eq]
  rfl

lemma beginOf_letter (h : nonceForm nonce = true) :
    (60 : UInt8) ∉ (beginOf nonce).tail ∧ (10 : UInt8) ∉ beginOf nonce := by
  have h60 : (60 : UInt8) ∉ nonce := fun hmem => (nonceForm_letter h hmem).1 rfl
  have h10 : (10 : UInt8) ∉ nonce := fun hmem => (nonceForm_letter h hmem).2 rfl
  rw [beginOf_eq]
  refine ⟨?_,?_⟩
  · rw [List.tail_cons]
    simp only [List.mem_append,not_or]
    exact ⟨⟨by decide,by decide⟩,⟨by decide,h60⟩,by decide⟩
  · simp only [List.mem_cons,List.mem_append,not_or]
    exact ⟨by decide,⟨by decide,by decide⟩,⟨by decide,h10⟩,by decide⟩

lemma nonceMarker_infix_beginOf (nonce : Bytes) : nonceMarker nonce <:+: beginOf nonce := by
  refine ⟨ascii "<!-- BEGIN ",[],?_⟩
  have h : harnessBeginMarker ++ ascii " " ++ ascii "nonce=" = ascii "<!-- BEGIN " ++
    ascii "MANVI HARNESS nonce=" := by
    decide
  rw [List.append_nil,nonceMarker,beginOf,← List.append_assoc,← List.append_assoc,
    ← List.append_assoc,
    ← List.append_assoc,h]

lemma beginOf_injective (h : nonceForm nonce = true) (h' : nonceForm other = true)
    {rest rest' : Bytes}
    (heq : beginOf nonce ++ rest = beginOf other ++ rest') : nonce = other := by
  simp only [nonceForm,Bool.decide_and,Bool.and_eq_true,decide_eq_true_eq] at h h'
  simp only [beginOf,List.append_assoc] at heq
  have hcut := List.append_cancel_left (List.append_cancel_left (List.append_cancel_left heq))
  exact (List.append_inj hcut (by rw [h.1,h'.1])).1

/-- An opening marker that ends before the block stands in the text before it. -/
lemma infix_of_lines {tag : Bytes} (hne : tag ≠ []) (h10 : (10 : UInt8) ∉ tag)
    (hsep : ∀ b ∈ sep, b = 10)
    (h : tag <:+: pre ++ sep) : tag <:+: pre := by
  induction sep generalizing pre with
  | nil => rwa [List.append_nil] at h
  | cons b sep ih =>
    have hb := hsep b List.mem_cons_self
    subst hb
    cases infix_append_cons h10 h with
    | inl h => exact h
    | inr h =>
      have hnil : tag <:+: [] := ih (fun b hb => hsep b (List.mem_cons_of_mem _ hb)) h
      exact absurd (List.infix_nil.mp hnil) hne

/-- In a file with a block, an opening marker that the text around the block does not carry is the
block's own. -/
lemma Framed.begin_at (hblock : Framed nonce block) (hnonce : nonceForm nonce = true)
    (hother : nonceForm other = true)
    (hsep : ∀ b ∈ sep, b = 10) (hpre : ¬ nonceMarker other <:+: pre)
    (hpost : ¬ nonceMarker other <:+: post)
    (h : x ++ beginOf other ++ y = pre ++ (sep ++ block) ++ post) :
    x = pre ++ sep ∧ other = nonce := by
  have hmark := nonceMarker_infix_beginOf other
  obtain ⟨h60,h10⟩ := beginOf_letter hother
  have hne : beginOf other ≠ [] := by
    rw [beginOf_eq]
    exact List.cons_ne_nil _ _
  obtain ⟨rest,hrest⟩ := hblock.opens
  have hhead : ∃ tail, block ++ post = 60 :: tail := by
    rw [← hrest,beginOf_eq]
    exact ⟨_,rfl⟩
  have hwhole : x ++ (beginOf other ++ y) = (pre ++ sep) ++ (block ++ post) := by
    rw [← List.append_assoc,h]
    simp
  rw [List.append_eq_append_iff] at hwhole
  cases hwhole with
  | inl hleft =>
    obtain ⟨u,hps,hbegin⟩ := hleft
    rw [List.append_eq_append_iff] at hbegin
    cases hbegin with
    | inl hin =>
      obtain ⟨v,hu,_⟩ := hin
      refine absurd (hmark.trans (infix_of_lines hne h10 hsep ?_)) hpre
      exact ⟨x,v,by rw [hps,hu,List.append_assoc]⟩
    | inr hcross =>
      obtain ⟨v,hb,hv⟩ := hcross
      cases u with
      | nil =>
        rw [List.nil_append] at hb
        rw [List.append_nil] at hps
        have hsame : beginOf other ++ y = beginOf nonce ++ (rest ++ post) := by
          rw [hb,← hv,← hrest,List.append_assoc]
        exact ⟨hps.symm,beginOf_injective hother hnonce hsame⟩
      | cons c u =>
        cases v with
        | nil =>
          rw [List.append_nil] at hb
          refine absurd (hmark.trans (infix_of_lines hne h10 hsep ?_)) hpre
          exact ⟨x,[],by rw [hps,hb,List.append_nil]⟩
        | cons d v =>
          obtain ⟨tail,htail⟩ := hhead
          rw [htail] at hv
          have hd := (List.cons.inj hv).1
          rw [hb,List.cons_append,List.tail_cons] at h60
          exact absurd (List.mem_append_right u (List.mem_cons.mpr (.inl hd))) h60
  | inr hright =>
    obtain ⟨u,hx,hbegin⟩ := hright
    obtain ⟨lines,hlines⟩ := hblock.closes
    have hlast : u ++ beginOf other ++ y = lines ++ 10 :: post := by
      rw [List.append_assoc,← hbegin,hlines,List.append_assoc]
      rfl
    cases append_eq_append_cons h10 hlast with
    | inr hbehind =>
      obtain ⟨z,hz,_⟩ := hbehind
      exact absurd (hmark.trans ⟨z,y,hz.symm⟩) hpost
    | inl hinside =>
      obtain ⟨z,hz⟩ := hinside
      cases u with
      | nil =>
        rw [List.append_nil] at hx
        have hsame : beginOf other ++ (z ++ [10]) = beginOf nonce ++ rest := by
          rw [hrest,hlines,hz,List.nil_append,List.append_assoc]
        exact ⟨hx,beginOf_injective hother hnonce hsame⟩
      | cons c u =>
        refine absurd ?_ hblock.once
        rw [hlines,hz,List.cons_append,List.cons_append,List.cons_append,List.tail_cons]
        refine ⟨u,ascii " " ++ (ascii "nonce=" ++ other ++ ascii " ") ++ z ++ [10],?_⟩
        simp only [beginOf,List.append_assoc]

end places

end Manvi.Managed
