import Manvi.Managed.Checkout

/-! Taking the harness block out of an instruction file: what a restore leaves, whatever the agent
left there. -/
namespace Manvi.Managed
open Manvi.Encoding Manvi.Program

/-- The file with what is left around the block. A file that the block made is gone when that is
only white space. -/
def PendingRestore.around (p : PendingRestore) (left : Bytes) : Option Bytes :=
  if p.existed = false ∧ trimSpace left = [] then none else some left

/-- The file without the copies of the block. -/
def PendingRestore.outside (p : PendingRestore) (text : Bytes) : Option Bytes :=
  p.around (cutSpans text p.appended p.offset).1

def Disk.setFile (d : Disk) (file : String) (content : Option Bytes) : Disk :=
  { d with files := Function.update d.files file content }

/-- How a restore can end: refused with nothing changed, with no copy to take out, or with the
copies out. -/
inductive Restored (p : PendingRestore) (d : Disk) (es : List Effect) (err : List HarnessFault)
    (w : World) : Prop
  | refused (herr : err ≠ []) (hat : At d es w)
      (husable : p.valid = none → err.any HarnessFault.unusable = false)
      (hedited : err.any HarnessFault.modified = true →
        ∃ text, d.files p.file = some text ∧ ¬ p.appended <:+: text ∧ nonceMarker p.nonce <:+: text)
  | nothing (hvalid : p.valid = none)
      (hfree : ∀ text, d.files p.file = some text → ¬ p.appended <:+: text ∧
        ¬ nonceMarker p.nonce <:+: text)
      (hrecord : RecordRemoved p.nonce d es err w)
  | unsure (text : Bytes) (effect : Effect) (hvalid : p.valid = none)
      (hfile : d.files p.file = some text)
      (hcopy : p.appended <:+: text) (herr : err ≠ []) (hplain : Plain err)
      (hat : At (d.setFile p.file (p.outside text)) (es ++ [effect]) w)
  | taken (text : Bytes) (effect : Effect) (hvalid : p.valid = none)
      (hfile : d.files p.file = some text)
      (hsize : text.length ≤ maxInstructionFileBytes) (hcopy : p.appended <:+: text)
      (hrecord : RecordRemoved p.nonce (d.setFile p.file (p.outside text)) (es ++ [effect]) err w)

/-- How a restore can be cut off: before it changed the file, or after. -/
inductive RestoreCut (p : PendingRestore) (d : Disk) (es : List Effect) (w : World) : Prop
  | before (hat : At d es w)
  | after (text : Bytes) (effect : Effect) (hfile : d.files p.file = some text)
      (hcopy : p.appended <:+: text)
      (hat : At (d.setFile p.file (p.outside text)) (es ++ [effect]) w)

section
variable {p : PendingRestore} {d : Disk} {es : List Effect} {text : Bytes}

/-- The removal of the record, once the copies are out. -/
lemma removeRecord_taken (effect : Effect) (hvalid : p.valid = none)
    (hfile : d.files p.file = some text)
    (hsize : text.length ≤ maxInstructionFileBytes) (hcopy : p.appended <:+: text) :
    Triple (At (d.setFile p.file (p.outside text)) (es ++ [effect])) (removeRecord p.nonce)
      (Restored p d es) (fun _ => RestoreCut p d es) :=
  (removeRecord_triple p.nonce).weaken (fun _ h => h)
    (fun _ _ h => .taken text effect hvalid hfile hsize hcopy h) (fun _ _ h =>
      .after text effect hfile hcopy h)

lemma remove_outside (hvalid : p.valid = none) (hfile : d.files p.file = some text)
    (hsize : text.length ≤ maxInstructionFileBytes) (hcopy : p.appended <:+: text)
    (hout : p.outside text = none) :
    Triple (At d es) (do
      let err ← (Slot.file p.file).remove
      if err ≠ [] then pure err else removeRecord p.nonce)
      (Restored p d es) (fun _ => RestoreCut p d es) := by
  refine Triple.bind ((Slot.file p.file).remove_triple.weaken (fun _ h => h) (fun _ _ h => h)
    (fun _ _ h => .before h)) (fun err => ?_)
  have hput : (Slot.file p.file).put none d = d.setFile p.file (p.outside text) := by
    rw [hout]
    rfl
  refine Triple.ite ?_ ?_
  · intro hne
    refine Triple.pure ?_
    intro w hw
    cases hw with
    | refused herr hat =>
      refine .refused hne hat (fun _ => ?_) ?_
      · cases herr with
        | inl h => rw [h]; rfl
        | inr h => rw [h]; rfl
      · intro hmodified
        cases herr with
        | inl h => rw [h] at hmodified; cases hmodified
        | inr h => rw [h] at hmodified; cases hmodified
    | done herr hat =>
      rw [hput] at hat
      cases herr with
      | inl h => exact absurd h hne
      | inr h => exact .unsure text _ hvalid hfile hcopy hne (by rw [h]; exact ⟨rfl,rfl⟩) hat
  · intro hnil
    refine (removeRecord_taken (.removed p.file) hvalid hfile hsize hcopy).weaken ?_ (fun _ _ h =>
      h) (fun _ _ h => h)
    intro w hw
    rw [not_not] at hnil
    cases hw with
    | refused herr _ =>
      rw [hnil] at herr
      cases herr with
      | inl h => cases h
      | inr h => cases h
    | done _ hat =>
      rw [hput] at hat
      exact hat

lemma write_outside (hvalid : p.valid = none) (hfile : d.files p.file = some text)
    (hsize : text.length ≤ maxInstructionFileBytes) (hcopy : p.appended <:+: text)
    (hout : p.outside text = some (cutSpans text p.appended p.offset).1) :
    Triple (At d es) (do
      let err ← (Slot.file p.file).write (cutSpans text p.appended p.offset).1
      if err ≠ [] then pure [.takingOut p.file err] else removeRecord p.nonce)
      (Restored p d es) (fun _ => RestoreCut p d es) := by
  have hold : (Slot.file p.file).get d ≠ none := by
    change d.files p.file ≠ none
    rw [hfile]
    exact Option.some_ne_none text
  have hput : (Slot.file p.file).put (some (cutSpans text p.appended p.offset).1) d =
      d.setFile p.file (p.outside text) := by
    rw [hout]
    rfl
  refine Triple.bind (((Slot.file p.file).write_triple _).weaken (fun _ h => h) (fun _ _ h => h) ?_)
    (fun err => ?_)
  · intro _ w hw
    cases hw with
    | before hat => exact .before hat
    | torn _ hnew _ => exact absurd hnew hold
  · refine Triple.ite ?_ ?_
    · intro hne
      refine Triple.pure ?_
      intro w hw
      cases hw with
      | refused _ hat => exact .refused (by simp) hat (fun _ => rfl) (fun h => by cases h)
      | done _ hat =>
        rw [hput] at hat
        exact .unsure text _ hvalid hfile hcopy (by simp) ⟨rfl,rfl⟩ hat
      | torn _ hnew _ _ => exact absurd hnew hold
    · intro hnil
      refine (removeRecord_taken (.wrote p.file) hvalid hfile hsize hcopy).weaken ?_ (fun _ _ h =>
        h) (fun _ _ h => h)
      intro w hw
      rw [not_not] at hnil
      cases hw with
      | refused herr _ =>
        rw [hnil] at herr
        cases herr with
        | inl h => cases h
        | inr h => cases h
      | done _ hat =>
        rw [hput] at hat
        exact hat
      | torn _ hnew _ _ => exact absurd hnew hold

lemma restoreRecorded_triple (p : PendingRestore) :
    Triple (At d es) (restoreRecorded p) (Restored p d es) (fun _ => RestoreCut p d es) := by
  unfold restoreRecorded
  cases hvalid : p.valid with
  | some why =>
    refine Triple.pure ?_
    intro w hw
    refine .refused (by simp) hw ?_ ?_
    · intro hnone
      rw [hvalid] at hnone
      cases hnone
    · intro hmodified
      cases hmodified
  | none =>
    refine Triple.bind (((Slot.file p.file).read_triple _).weaken (fun _ h => h) (fun _ _ h => h)
      (fun _ _ h => .before h)) (fun r => ?_)
    cases r with
    | absent =>
      intro w hw
      have hnone : d.files p.file = none := hw.1
      refine ((removeRecord_triple p.nonce).weaken (fun _ h => h) (fun _ _ h =>
        .nothing hvalid ?_ h)
        (fun _ _ h => .before h)) w hw.2
      intro text htext
      rw [hnone] at htext
      cases htext
    | refused =>
      exact Triple.pure (fun w hw => .refused (by simp) hw.2 (fun _ => rfl) (fun h => by cases h))
    | ok text =>
      intro w hw
      have hfile : d.files p.file = some text := hw.1.1
      have hsize : text.length ≤ maxInstructionFileBytes := of_decide_eq_true hw.1.2
      refine (?_ : Triple (At d es) _ (Restored p d es) (fun _ => RestoreCut p d es)) w hw.2
      refine Triple.ite ?_ ?_
      · intro hcut
        have hfree := cutSpans_none_iff.mp hcut
        refine Triple.ite ?_ ?_
        · intro hmarker
          refine Triple.pure ?_
          intro w hw
          exact .refused (by simp) hw (fun _ => rfl) (fun _ => ⟨text,hfile,hfree,
            contains_iff.mp hmarker⟩)
        · intro hmarker
          refine (removeRecord_triple p.nonce).weaken (fun _ h => h) (fun _ _ h =>
            .nothing hvalid ?_ h)
            (fun _ _ h => .before h)
          intro text' htext'
          rw [hfile] at htext'
          cases htext'
          exact ⟨hfree,fun h => hmarker (contains_iff.mpr h)⟩
      · intro hcut
        have hcopy : p.appended <:+: text := by
          by_contra hno
          exact hcut (cutSpans_none_iff.mpr hno)
        refine Triple.ite ?_ ?_
        · intro hspace
          exact remove_outside hvalid hfile hsize hcopy (if_pos hspace)
        · intro hspace
          exact write_outside hvalid hfile hsize hcopy (if_neg hspace)

/-- The removal of the record leaves the files alone. -/
lemma RecordRemoved.files {nonce : Bytes} {err : List HarnessFault} {w : World}
    (h : RecordRemoved nonce d es err w) :
    w.disk.files = d.files := by
  cases h with
  | kept hat _ _ => rw [hat.1]
  | gone _ _ _ _ hat => rw [hat.1]

end

/-- The text with copies of the appended bytes taken out and nothing else. A file that the block
made is gone when copies came out and only white space is left. -/
def TakenFrom (p : PendingRestore) (text : Bytes) (after : Option Bytes) : Prop :=
  ∃ left n, Cut p.appended text left n ∧
    after = if n ≠ 0 ∧ p.existed = false ∧ trimSpace left = [] then none else some left

/-- A file with the marker of a block in it. -/
def Marked (nonce : Bytes) (content : Option Bytes) : Prop :=
  ∃ text, content = some text ∧ nonceMarker nonce <:+: text

/-- A restore is exact for what stood in the file before the block and what the agent left there. -/
structure RestoreExact (before content : Option Bytes) (m : HarnessMaterialisation)
    (w : World) : Prop where
  taken : ∀ w', m.restore w = (.ok [],w') →
    (∀ text, content = some text → TakenFrom m.pending text (w'.disk.files m.file)) ∧
    (content = none → w'.disk.files m.file = none) ∧ ¬ Marked m.pending.nonce (w'.disk.files m.file)
  unchanged : content = some (before.getD [] ++ m.pending.appended) → ∀ w',
    m.restore w = (.ok [],w') →
    w'.disk.files m.file = before
  failed : ∀ err w', m.restore w = (.ok err,w') → err ≠ [] → w'.effects = w.effects →
    w'.disk = w.disk

/-- Without an intact copy, or with no marker in what stands around the copies that a restore
finds. -/
def LeavesNoMarker (p : PendingRestore) : Option Bytes → Prop
  | none => True
  | some text => text.length > maxInstructionFileBytes ∨ ¬ p.appended <:+: text ∨
    ∀ left, LeftOver p.appended p.offset text left → ¬ nonceMarker p.nonce <:+: left

section exact
variable {p : PendingRestore} {m : HarnessMaterialisation} {before content : Option Bytes}
    {text : Bytes} {w w' : World}

lemma not_infix_of_space {nonce : Bytes} (h : trimSpace text = []) :
    ¬ nonceMarker nonce <:+: text := by
  intro hin
  have hM : (77 : UInt8) ∈ nonceMarker nonce := by
    refine List.mem_append_left _ (List.mem_append_left _ ?_)
    decide
  obtain ⟨word,hword,hb⟩ := space_of_trimSpace_nil h 77 (hin.subset hM)
  have hnone : ∀ word ∈ spaces, (77 : UInt8) ∉ word := by decide
  exact hnone word hword hb

lemma restored_of_run {err : List HarnessFault} (h : m.restore w = (.ok err,w')) :
    Restored m.pending w.disk w.effects err w' :=
  (restoreRecorded_triple m.pending w ⟨rfl,rfl⟩).1 err w' h

lemma takenFrom_outside (hcopy : p.appended <:+: text) : TakenFrom p text (p.outside text) := by
  refine ⟨_,_,cutSpans_cut text p.appended p.offset,?_⟩
  have hn : (cutSpans text p.appended p.offset).2 ≠ 0 := fun h => cutSpans_none_iff.mp h hcopy
  unfold PendingRestore.outside PendingRestore.around
  by_cases hspace : p.existed = false ∧ trimSpace (cutSpans text p.appended p.offset).1 = []
  · rw [if_pos hspace,if_pos ⟨hn,hspace⟩]
  · rw [if_neg hspace,if_neg (fun h => hspace h.2)]

/-- The file without the copies carries a marker exactly when what stands around them does. -/
lemma marked_outside_iff (hne : p.appended ≠ []) (nonce : Bytes) :
    Marked nonce (p.outside text) ↔ ∃ left, LeftOver p.appended p.offset text left ∧
    nonceMarker nonce <:+: left := by
  have hleft := cutSpans_leftOver hne text p.offset
  unfold PendingRestore.outside PendingRestore.around
  by_cases hspace : p.existed = false ∧ trimSpace (cutSpans text p.appended p.offset).1 = []
  · rw [if_pos hspace]
    refine ⟨?_,?_⟩
    · rintro ⟨_,h,_⟩
      cases h
    · rintro ⟨left,h,hin⟩
      rw [← hleft.unique h] at hin
      exact absurd hin (not_infix_of_space hspace.2)
  · rw [if_neg hspace]
    refine ⟨?_,?_⟩
    · rintro ⟨left,h,hin⟩
      cases h
      exact ⟨_,hleft,hin⟩
    · rintro ⟨left,h,hin⟩
      rw [← hleft.unique h] at hin
      exact ⟨_,rfl,hin⟩

lemma not_infix_nil {span : Bytes} (hne : span ≠ []) : ¬ span <:+: [] := by
  intro h
  exact hne (List.infix_nil.mp h)

/-- Taking out what was appended gives back what was there. -/
lemma outside_appended (hne : p.appended ≠ []) (hexisted : p.existed = before.isSome)
    (hoffset : p.offset = (before.getD []).length) :
    p.outside (before.getD [] ++ p.appended) = before := by
  have hleft : LeftOver p.appended p.offset (before.getD [] ++ p.appended) (before.getD []) := by
    have h : LeftOver p.appended p.offset (before.getD [] ++ p.appended ++ []) (before.getD [] ++
      []) :=
      .hinted hoffset.symm (.free (not_infix_nil hne))
    rwa [List.append_nil,List.append_nil] at h
  have hcut := (cutSpans_leftOver hne (before.getD [] ++ p.appended) p.offset).unique hleft
  unfold PendingRestore.outside PendingRestore.around
  rw [hcut]
  cases before with
  | none => rw [if_pos ⟨hexisted,trimSpace_nil⟩]
  | some b =>
    rw [hexisted,if_neg (by simp)]
    rfl

lemma restoreExact_of_leavesNoMarker (hfile : m.pending.file = m.file)
    (hvalid : m.pending.valid = none)
    (hexisted : m.pending.existed = before.isSome)
    (hoffset : m.pending.offset = (before.getD []).length)
    (hcond : LeavesNoMarker m.pending content) (hw : w.disk.files m.file = content) :
    RestoreExact before content m w := by
  have hne := PendingRestore.appended_ne_nil hvalid
  refine ⟨?_,?_,?_⟩
  · intro w' hrun
    cases restored_of_run hrun with
    | refused herr => exact absurd rfl herr
    | unsure _ _ _ _ _ herr => exact absurd rfl herr
    | nothing _ hfree hrecord =>
      rw [hrecord.files,hw]
      refine ⟨?_,fun h => h,?_⟩
      · intro text htext
        exact ⟨text,0,.none text,by simpa using htext⟩
      · rintro ⟨text,htext,hin⟩
        rw [hfile,hw] at hfree
        exact (hfree text htext).2 hin
    | taken text effect _ htext hsize hcopy hrecord =>
      rw [hfile,hw] at htext
      have hafter : w'.disk.files m.file = m.pending.outside text := by
        rw [hrecord.files,← hfile]
        exact Function.update_self _ _ _
      rw [hafter]
      refine ⟨?_,?_,?_⟩
      · intro text' htext'
        rw [htext] at htext'
        cases htext'
        exact takenFrom_outside hcopy
      · intro hnone
        rw [hnone] at htext
        cases htext
      · rw [marked_outside_iff hne]
        rintro ⟨left,hleft,hin⟩
        rw [htext] at hcond
        cases hcond with
        | inl h => exact absurd hsize (not_le.mpr h)
        | inr h =>
          cases h with
          | inl h => exact h hcopy
          | inr h => exact h left hleft hin
  · intro hcontent w' hrun
    cases restored_of_run hrun with
    | refused herr => exact absurd rfl herr
    | unsure _ _ _ _ _ herr => exact absurd rfl herr
    | nothing _ hfree _ =>
      rw [hfile,hw] at hfree
      exact absurd (List.suffix_append _ _).isInfix (hfree _ hcontent).1
    | taken text effect _ htext _ hcopy hrecord =>
      rw [hfile,hw,hcontent] at htext
      cases htext
      rw [hrecord.files,← hfile]
      refine (Function.update_self _ _ _).trans ?_
      exact outside_appended hne hexisted hoffset
  · intro err w' hrun herr heffects
    have hlonger : ∀ {d : Disk} {e : Effect} {es : List Effect},
      ¬ At d (w.effects ++ e :: es) w' := by
      intro d e es hat
      have hlen := congrArg List.length (hat.2.symm.trans heffects)
      simp at hlen
    cases restored_of_run hrun with
    | refused _ hat => exact hat.1
    | nothing _ _ hrecord =>
      cases hrecord with
      | kept hat => exact hat.1
      | gone _ _ _ _ hat => exact absurd hat hlonger
    | unsure _ _ _ _ _ _ _ hat => exact absurd hat hlonger
    | taken _ _ _ _ _ _ hrecord =>
      cases hrecord with
      | kept hat => exact absurd hat hlonger
      | gone _ _ _ _ hat =>
        rw [List.append_assoc] at hat
        exact absurd hat hlonger

lemma removeRecord_done {rest : List Outcome}
    (hrecord : w.disk.record = none ∨ w.disk.record = some (.written p))
    (houtcomes : w.outcomes = .done :: .done :: rest) :
    ∃ w', removeRecord p.nonce w = (.ok [],w') := by
  cases hrecord with
  | inl hrecord =>
    simp [removeRecord,bind,Prog.bind,readRecord,Slot.read,Slot.pending,nextOutcome,houtcomes,
      hrecord,Prog.read,
      pure,Prog.pure]
  | inr hrecord =>
    simp [removeRecord,bind,Prog.bind,readRecord,Slot.read,Slot.pending,nextOutcome,houtcomes,
      hrecord,Prog.read,
      pure,Prog.pure,RecordText.written,Slot.remove,Slot.set,Prog.modify]

/-- A restore whose operations all go well ends without a fault, unless the block was edited. -/
lemma restoreRecorded_done {rest : List Outcome} (hvalid : p.valid = none)
    (hsize : ∀ text, w.disk.files p.file = some text → text.length ≤ maxInstructionFileBytes)
    (hedited : ∀ text, w.disk.files p.file = some text → p.appended <:+: text ∨
      ¬ nonceMarker p.nonce <:+: text)
    (hrecord : w.disk.record = none ∨ w.disk.record = some (.written p))
    (houtcomes : w.outcomes = .done :: .done :: .done :: .done :: rest) :
    ∃ w', restoreRecorded p w = (.ok [],w') := by
  unfold restoreRecorded
  rw [hvalid]
  cases hfile : w.disk.files p.file with
  | none =>
    obtain ⟨w',hdone⟩ := removeRecord_done (w := { w with
      outcomes := .done :: .done :: .done :: rest }) hrecord rfl
    refine ⟨w',?_⟩
    simpa [bind,Prog.bind,readInstructionFile,Slot.read,Slot.file,nextOutcome,houtcomes,hfile,
      Prog.read,pure,
      Prog.pure] using hdone
  | some text =>
    have hfits := hsize text hfile
    by_cases hcopy : p.appended <:+: text
    · have hcut : (cutSpans text p.appended p.offset).2 ≠ 0 := fun h => cutSpans_none_iff.mp h hcopy
      by_cases hspace : p.existed = false ∧ trimSpace (cutSpans text p.appended p.offset).1 = []
      · obtain ⟨w',hdone⟩ := removeRecord_done (w := ⟨(Slot.file p.file).put none w.disk,
          .done :: .done :: rest,
          w.effects ++ [.removed p.file]⟩) hrecord rfl
        refine ⟨w',?_⟩
        simpa [bind,Prog.bind,readInstructionFile,Slot.read,Slot.file,nextOutcome,houtcomes,hfile,
          Prog.read,pure,
          Prog.pure,hfits,hcut,hspace,Slot.remove,Slot.set,Prog.modify] using hdone
      · obtain ⟨w',hdone⟩ := removeRecord_done
          (w := ⟨(Slot.file p.file).put (some (cutSpans text p.appended p.offset).1) w.disk,
          .done :: .done :: rest,w.effects ++ [.wrote p.file]⟩) hrecord rfl
        refine ⟨w',?_⟩
        simpa [bind,Prog.bind,readInstructionFile,Slot.read,Slot.file,nextOutcome,houtcomes,hfile,
          Prog.read,pure,
          Prog.pure,hfits,hcut,hspace,Slot.write,Slot.set,Prog.modify] using hdone
    · have hcut : (cutSpans text p.appended p.offset).2 = 0 := cutSpans_none_iff.mpr hcopy
      have hmarker : ¬ nonceMarker p.nonce <:+: text := (hedited text hfile).resolve_left hcopy
      obtain ⟨w',hdone⟩ := removeRecord_done (w := { w with
        outcomes := .done :: .done :: .done :: rest }) hrecord rfl
      refine ⟨w',?_⟩
      simpa [bind,Prog.bind,readInstructionFile,Slot.read,Slot.file,nextOutcome,houtcomes,hfile,
        Prog.read,pure,
        Prog.pure,hfits,hcut,hmarker] using hdone

lemma leavesNoMarker_of_restoreExact (hfile : m.pending.file = m.file)
    (hvalid : m.pending.valid = none)
    (h : ∀ w, w.disk.files m.file = content → RestoreExact before content m w) :
    LeavesNoMarker m.pending content := by
  cases content with
  | none => exact trivial
  | some text =>
    by_contra hcond
    simp only [LeavesNoMarker,not_or,not_not,not_forall,not_lt] at hcond
    obtain ⟨hsize,hcopy,left,hleft,hin⟩ := hcond
    let w : World := ⟨⟨fun _ => some text,none⟩,List.replicate 4 .done,[]⟩
    have hfits : ∀ t, w.disk.files m.pending.file = some t →
      t.length ≤ maxInstructionFileBytes := by
      intro t ht
      cases ht
      exact hsize
    have hedited : ∀ t, w.disk.files m.pending.file = some t → m.pending.appended <:+: t ∨
      ¬ nonceMarker m.pending.nonce <:+: t := by
      intro t ht
      cases ht
      exact .inl hcopy
    obtain ⟨w',hrun⟩ := restoreRecorded_done (w := w) hvalid hfits hedited (.inl rfl) rfl
    have hunmarked := ((h w rfl).taken w' hrun).2.2
    cases restored_of_run hrun with
    | refused herr => exact herr rfl
    | unsure _ _ _ _ _ herr => exact herr rfl
    | nothing _ hfree _ => exact (hfree text rfl).1 hcopy
    | taken text' effect _ htext _ _ hrecord =>
      cases htext
      apply hunmarked
      rw [hrecord.files,← hfile]
      change Marked m.pending.nonce (Function.update w.disk.files m.pending.file
        (m.pending.outside text) m.pending.file)
      rw [Function.update_self,marked_outside_iff (PendingRestore.appended_ne_nil hvalid)]
      exact ⟨left,hleft,hin⟩

end exact

/-- A restore is exact for every run of it exactly when the agent left no marker outside of the
copies that the restore finds: all of them, or those from the remembered offset on where one stands
there. -/
theorem restoreExact_iff {provider : String} {spec : HarnessSpec} {nonce : Option Bytes}
    {w w' : World}
    {m : HarnessMaterialisation} {err : List HarnessFault}
    (hm : materialiseHarness provider spec nonce w = (.ok (some m,err),w'))
    (content : Option Bytes) :
    (∀ s : World, s.disk.files m.file = content → RestoreExact (w.disk.files m.file) content m s) ↔
      LeavesNoMarker m.pending content := by
  have haccepted := ((materialiseHarness_triple provider spec nonce w ⟨rfl,rfl⟩).1 _ w' hm).1 m rfl
  obtain ⟨block,_,_,hpending⟩ := haccepted.block
  have hfile : m.pending.file = m.file := by
    rw [hpending]
    rfl
  refine ⟨leavesNoMarker_of_restoreExact hfile haccepted.valid,?_⟩
  intro hcond s hs
  refine restoreExact_of_leavesNoMarker hfile haccepted.valid ?_ ?_ hcond hs
  · rw [hpending]
    rfl
  · rw [hpending]
    rfl

def sampleSpec : HarnessSpec :=
  ⟨ascii "review",[⟨ascii "rules",100,ascii "Be brief.\n"⟩],ascii "d1"⟩

def sampleNonce : Bytes := List.replicate 32 48

/-- A checkout with an instruction file of one line, where every operation goes well. -/
def sampleCheckout : World :=
  ⟨⟨fun name => if name = "AGENTS.md" then some (ascii "x\n") else none,none⟩,
    List.replicate 6 .done,[]⟩

def sampleBlock : Bytes := (renderHarnessBlock sampleSpec sampleNonce).toOption.getD []

def sampleMaterialisation : HarnessMaterialisation :=
  ⟨"AGENTS.md",PendingRestore.of "AGENTS.md" sampleNonce sampleBlock (some (ascii "x\n"))⟩

/-- The materialisation that a program returned without a fault. -/
def returned (r : Except Unit (Option HarnessMaterialisation × List HarnessFault) × World) :
    Option HarnessMaterialisation :=
  match r with
  | (.ok (m,[]),_) => m
  | _ => none

lemma run_of_returned {r : Except Unit (Option HarnessMaterialisation × List HarnessFault) × World}
    {m : HarnessMaterialisation} (h : returned r = some m) : ∃ w, r = (.ok (some m,[]),w) := by
  unfold returned at h
  split at h
  · subst h
    exact ⟨_,rfl⟩
  · cases h

lemma sample_returned : returned (materialiseHarness "codex" sampleSpec
    (some sampleNonce) sampleCheckout) =
    some sampleMaterialisation := by set_option maxRecDepth 40000 in decide

/-- The file as the run found it, with the block behind it. -/
theorem restoreExact_iff_unedited :
    (∃ w', materialiseHarness "codex" sampleSpec (some sampleNonce) sampleCheckout =
      (.ok (some sampleMaterialisation,[]),w')) ∧
    ((∀ s : World, s.disk.files "AGENTS.md" = some (ascii "x\n" ++
      sampleMaterialisation.pending.appended) →
        RestoreExact (some (ascii "x\n")) (some (ascii "x\n" ++
          sampleMaterialisation.pending.appended)) sampleMaterialisation s) ↔
      LeavesNoMarker sampleMaterialisation.pending (some (ascii "x\n" ++
        sampleMaterialisation.pending.appended))) := by
  obtain ⟨w',hm⟩ := run_of_returned sample_returned
  exact ⟨⟨w',hm⟩,restoreExact_iff hm _⟩

/-- The block's lines a second time, right below the block. -/
def copiedText : Bytes := ascii "x\n" ++ sampleMaterialisation.pending.appended ++ sampleBlock

def copiedCheckout : World :=
  ⟨⟨fun name => if name = "AGENTS.md" then some copiedText else none,
    some (.written sampleMaterialisation.pending)⟩,
    List.replicate 6 .done,[]⟩

/-- A restore that ended without a fault, with a marker still in the instruction file. -/
def leftMarked (r : Except Unit (List HarnessFault) × World) : Bool :=
  match r with
  | (.ok [],w) => (w.disk.files "AGENTS.md").any (fun text =>
    contains text (nonceMarker sampleNonce))
  | _ => false

/-- The copy that lacks the separator stays, and the restore reports success. -/
theorem restore_leaves_copied_lines :
    (∃ w', materialiseHarness "codex" sampleSpec (some sampleNonce) sampleCheckout =
      (.ok (some sampleMaterialisation,[]),w')) ∧
    ¬ RestoreExact (some (ascii "x\n")) (some copiedText) sampleMaterialisation copiedCheckout := by
  refine ⟨run_of_returned sample_returned,?_⟩
  intro hexact
  have hrun : leftMarked (sampleMaterialisation.restore copiedCheckout) = true := by decide +kernel
  unfold leftMarked at hrun
  split at hrun
  · rename_i w' hw'
    rw [Option.any_eq_true] at hrun
    obtain ⟨text,htext,hin⟩ := hrun
    exact (hexact.taken w' hw').2.2 ⟨text,htext,contains_iff.mp hin⟩
  · cases hrun

end Manvi.Managed
