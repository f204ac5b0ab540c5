import Manvi.Managed.BlockLines
import Manvi.Managed.TakenOut

/-! A checkout over successive managed runs, with a crash possible before any file operation: a
block in an instruction file has its record, and a recovery takes it out. -/
namespace Manvi.Managed
open Manvi.Encoding Manvi.Program

/-- A checkout, what the process remembers of it, and what the instruction files would be without
Manvi's writes. -/
structure Site where
  disk : Disk
  entered : Bool
  memory : List HarnessMaterialisation
  own : String → Option Bytes
  written : List PendingRestore

inductive Move
  | recover (outcomes : List Outcome)
  | materialise (provider : String) (spec : HarnessSpec) (nonce : Option Bytes)
      (outcomes : List Outcome)
  | restore (m : HarnessMaterialisation) (outcomes : List Outcome)
  | held (nonce : Bytes) (outcomes : List Outcome)
  | edit (file : String) (content : Option Bytes)
  | editAround (p : PendingRestore) (pre post : Bytes)
  | crash

def Site.world (s : Site) (outcomes : List Outcome) : World := ⟨s.disk,outcomes,[]⟩

/-- Go on after a program. Where it was cut off, what the process remembers is gone. -/
def Site.after {α : Type} (s : Site) (r : Except Unit α × World) (go : α → Site → Site) : Site :=
  match r with
  | (.ok a,w) => go a { s with disk := w.disk }
  | (.error _,w) => { s with disk := w.disk, entered := false, memory := [] }

/-- The record of the block that a materialisation sets out to write. -/
def intended (provider : String) (spec : HarnessSpec) (nonce : Option Bytes) (d : Disk) :
    Option PendingRestore :=
  match harnessInstructionFile provider,nonce with
  | some file,some nonce => match renderHarnessBlock spec nonce with
    | .ok block =>
      let p := PendingRestore.of file nonce block (d.files file)
      if block ≠ [] ∧ p.valid = none then some p else none
    | .error _ => none
  | _,_ => none

/-- An attempt enters the checkout when the recovery ends without a fault, and writes its block
once. -/
def Site.step (s : Site) : Move → Site
  | .recover outcomes => s.after (recoverPendingHarness (s.world outcomes)) (fun err s =>
      { s with entered := s.entered || err.isEmpty })
  | .materialise provider spec nonce outcomes =>
    { s with written := s.written ++ (intended provider spec nonce s.disk).toList }.after
      (materialiseHarness provider spec nonce (s.world outcomes)) (fun r s =>
        { s with entered := false, memory := s.memory ++ r.1.toList })
  | .restore m outcomes => s.after (m.restore (s.world outcomes)) (fun _ s => s)
  | .held nonce outcomes => s.after (restoreHeldBlock nonce (s.world outcomes)) (fun _ s => s)
  | .edit file content => { s with
    disk := s.disk.setFile file content, own := Function.update s.own file content }
  | .editAround p pre post =>
    { s with
      disk := s.disk.setFile p.file (some (pre ++ p.appended ++ post)),
      own := Function.update s.own p.file (p.around (pre ++ post)) }
  | .crash => { s with entered := false, memory := [] }

/-- A text without the marker of a block that Manvi wrote. -/
def Clean (written : List PendingRestore) (content : Option Bytes) : Prop :=
  ∀ p ∈ written, ∀ text, content = some text → ¬ nonceMarker p.nonce <:+: text

/-- A block that Manvi wrote is in a file. -/
def Site.Holds (s : Site) (p : PendingRestore) (file : String) : Prop :=
  ∃ text, s.disk.files file = some text ∧ p.appended <:+: text

/-- A nonce that no block has and no instruction file carries. -/
def Site.Fresh (s : Site) (nonce : Bytes) : Prop :=
  (∀ p ∈ s.written, p.nonce ≠ nonce) ∧ ∀ file text, s.disk.files file = some text →
  ¬ nonceMarker nonce <:+: text

/-- A block is written only by an attempt that entered, from a spec that was resolved. The agent
edits neither a block nor a record: it writes around a block, or where there is none. -/
def Site.Allowed (s : Site) : Move → Prop
  | .recover _ => True
  | .materialise _ spec nonce _ => s.entered = true ∧ spec.Validated ∧ ∀ n, nonce = some n →
    s.Fresh n
  | .restore m _ => m ∈ s.memory
  | .held _ _ => True
  | .edit file content => (∀ p ∈ s.written, ¬ s.Holds p file) ∧ Clean s.written content
  | .editAround p pre post => p ∈ s.written ∧ s.Holds p p.file ∧
    Clean s.written (some (pre ++ post))
  | .crash => True

/-- No write of a block leaves a new instruction file unfinished. -/
def Site.Whole (s : Site) : Move → Prop
  | .materialise provider spec nonce outcomes => ∀ file,
    harnessInstructionFile provider = some file →
      .tore file ∉ (materialiseHarness provider spec nonce (s.world outcomes)).2.effects
  | _ => True

def Site.start (files : String → Option Bytes) : Site := ⟨⟨files,none⟩,false,[],files,[]⟩

/-- The states that moves under a condition lead to. -/
inductive Reachable (cond : Site → Move → Prop) (files : String → Option Bytes) : Site → Prop
  | start : Reachable cond files (.start files)
  | step {s : Site} (move : Move) (h : Reachable cond files s) (hmove : cond s move) :
      Reachable cond files (s.step move)

/-- A block that is in an instruction file has its record. -/
def Site.Recorded (s : Site) : Prop :=
  ∀ p ∈ s.written, ∀ file, s.Holds p file → ∃ raw, s.disk.record = some raw ∧ raw.own = some p.nonce

/-- A recovery whose reads and writes succeed leaves the files as they would be without the block,
and no record. -/
def Site.Recovers (s : Site) : Prop :=
  ∀ rest, (∀ file text, isInstructionFile file = true → s.disk.files file = some text →
    text.length ≤ maxInstructionFileBytes) →
    ∃ err w, recoverPendingHarness (s.world (List.replicate 5 .done ++ rest)) = (.ok err,w) ∧
      w.disk.files = s.own ∧ w.disk.record = none

section shape
variable {own : String → Option Bytes} {written : List PendingRestore} {d : Disk}
    {p q : PendingRestore} {pre post : Bytes}

/-- A block as Manvi writes it. -/
structure Known (p : PendingRestore) : Prop where
  valid : p.valid = none
  framed : ∃ sep block, p.appended = sep ++ block ∧ (∀ b ∈ sep, b = 10) ∧ Framed p.nonce block

/-- The blocks are told apart by their nonces, and no text of the agent's carries one. -/
structure Ledger (own : String → Option Bytes) (written : List PendingRestore) : Prop where
  known : ∀ p ∈ written, Known p
  distinct : ∀ p ∈ written, ∀ q ∈ written, p.nonce = q.nonce → p = q
  clean : ∀ file, Clean written (own file)

/-- How the disk can stand: no record, a record without its block, or a block with its record. -/
inductive Shape (own : String → Option Bytes) (written : List PendingRestore) (d : Disk) : Prop
  | free (hrecord : d.record = none ∨ d.record = some .unreadable) (hfiles : d.files = own)
  | recorded (p : PendingRestore) (hp : p ∈ written) (hrecord : d.record = some (.written p))
      (hfiles : d.files = own)
  | placed (p : PendingRestore) (hp : p ∈ written) (hrecord : d.record = some (.written p))
      (pre post : Bytes)
      (hclean : Clean written (some (pre ++ post))) (hown : own p.file = p.around (pre ++ post))
      (hfiles : d.files = Function.update own p.file (some (pre ++ p.appended ++ post)))

lemma PendingRestore.nonceForm_of_valid (h : p.valid = none) : nonceForm p.nonce = true := by
  by_contra hform
  unfold PendingRestore.valid at h
  split_ifs at h

lemma PendingRestore.isInstructionFile_of_valid (h : p.valid = none) :
    isInstructionFile p.file = true := by
  by_contra hfile
  unfold PendingRestore.valid at h
  split_ifs at h

lemma Known.marker_within (h : Known p) : nonceMarker p.nonce <:+: p.appended := by
  obtain ⟨sep,block,happended,_,hframed⟩ := h.framed
  rw [happended]
  exact (nonceMarker_infix_beginOf p.nonce).trans (hframed.opens.isInfix.trans
    (List.suffix_append sep block).isInfix)

/-- Around a block, an occurrence of some block is of the same nonce. -/
lemma Known.nonce_eq (hp : Known p) (hq : Known q) (hpre : ¬ nonceMarker q.nonce <:+: pre)
    (hpost : ¬ nonceMarker q.nonce <:+: post) (h : q.appended <:+: pre ++ p.appended ++ post) :
    q.nonce = p.nonce := by
  obtain ⟨before,rest,h⟩ := h
  obtain ⟨sep,block,happended,hsep,hframed⟩ := hp.framed
  obtain ⟨sep',block',happended',_,hframed'⟩ := hq.framed
  obtain ⟨tail,htail⟩ := hframed'.opens
  have hbegin : (before ++ sep') ++ beginOf q.nonce ++ (tail ++ rest) = pre ++ (sep ++ block) ++
    post := by
    rw [← happended,← h,happended',← htail]
    simp only [List.append_assoc]
  exact (hframed.begin_at (PendingRestore.nonceForm_of_valid hp.valid)
    (PendingRestore.nonceForm_of_valid hq.valid) hsep hpre hpost hbegin).2

/-- A block occurs in one place. -/
lemma Known.place (hp : Known p) (hpre : ¬ nonceMarker p.nonce <:+: pre)
    (hpost : ¬ nonceMarker p.nonce <:+: post)
    {before rest : Bytes} (h : before ++ p.appended ++ rest = pre ++ p.appended ++ post) :
    before = pre := by
  obtain ⟨sep,block,happended,hsep,hframed⟩ := hp.framed
  obtain ⟨tail,htail⟩ := hframed.opens
  have hform := PendingRestore.nonceForm_of_valid hp.valid
  have hbegin : (before ++ sep) ++ beginOf p.nonce ++ (tail ++ rest) = pre ++ (sep ++ block) ++
    post := by
    rw [← happended,← h,happended,← htail]
    simp only [List.append_assoc]
  exact List.append_cancel_right (hframed.begin_at hform hform hsep hpre hpost hbegin).1

/-- Cutting the block out leaves what stands around it. -/
lemma Known.outside_eq (hp : Known p) (hclean : ¬ nonceMarker p.nonce <:+: pre ++ post) :
    p.outside (pre ++ p.appended ++ post) = p.around (pre ++ post) := by
  have hpre : ¬ nonceMarker p.nonce <:+: pre :=
    fun h => hclean (h.trans (List.prefix_append _ _).isInfix)
  have hpost : ¬ nonceMarker p.nonce <:+: post :=
    fun h => hclean (h.trans (List.suffix_append _ _).isInfix)
  have hne := PendingRestore.appended_ne_nil hp.valid
  have hrest : Stripped p.appended post post := .free (fun h => hpost (hp.marker_within.trans h))
  have hleft : LeftOver p.appended p.offset (pre ++ p.appended ++ post) (pre ++ post) := by
    by_cases hat : (pre.length : ℤ) = p.offset
    · exact .hinted hat hrest
    · refine .searched ?_ (.copy ?_ hrest)
      · intro before rest h
        rw [hp.place hpre hpost h.symm]
        exact hat
      · rintro ⟨before,rest,h⟩
        have hsplit := List.dropLast_append_getLast (l := pre ++ p.appended) (by simp [hne])
        rw [← h] at hsplit
        have hwhole : before ++ p.appended ++
          (rest ++ [(pre ++ p.appended).getLast (by simp [hne])]) = pre ++ p.appended ++ [] := by
          rw [← List.append_assoc,hsplit,List.append_nil]
        have hbefore := hp.place hpre (not_infix_nil (by simp [nonceMarker,ascii])) hwhole
        rw [hbefore] at hwhole
        have hnil := List.append_cancel_left hwhole
        simp at hnil
  unfold PendingRestore.outside
  rw [(cutSpans_leftOver hne _ _).unique hleft]

/-- A record that is read back is one that was written. -/
lemma Shape.strict_mem (h : Shape own written d) {raw : RecordText} (hraw : d.record = some raw)
    (hstrict : raw.strict = some q) :
    q ∈ written ∧ raw = .written q := by
  cases h with
  | free hrecord _ =>
    cases hrecord with
    | inl hnone =>
      rw [hnone] at hraw
      cases hraw
    | inr hun =>
      rw [hun] at hraw
      cases hraw
      cases hstrict
  | recorded p hp hrecord _ =>
    rw [hrecord] at hraw
    cases hraw
    cases hstrict
    exact ⟨hp,rfl⟩
  | placed p hp hrecord =>
    rw [hrecord] at hraw
    cases hraw
    cases hstrict
    exact ⟨hp,rfl⟩

/-- A restore of the recorded block that reports no fault has removed the record. -/
lemma record_of_restored {es : List Effect} {w : World} (hrecord : d.record = some (.written q))
    (hr : Restored q d es [] w) : w.disk.record = none := by
  have hremoved : ∀ {d : Disk} {es : List Effect}, d.record = some (.written q) →
    RecordRemoved q.nonce d es [] w →
      w.disk.record = none := by
    intro d es hrecord hremoved
    cases hremoved with
    | kept _ _ hdone => exact absurd rfl (hdone rfl _ hrecord)
    | gone _ _ _ _ hat => rw [hat.1]
  cases hr with
  | refused herr => exact absurd rfl herr
  | nothing _ _ h => exact hremoved hrecord h
  | unsure _ _ _ _ _ herr => exact absurd rfl herr
  | taken text _ _ _ _ _ h =>
    have hset : (d.setFile q.file (q.outside text)).record = some (.written q) := hrecord
    exact hremoved hset h

variable (hledger : Ledger own written)
include hledger

/-- A block that is in a file is the recorded one. -/
lemma Shape.placed_of_within (h : Shape own written d) (hq : q ∈ written) {file : String}
    {text : Bytes}
    (hfile : d.files file = some text) (hin : q.appended <:+: text) :
    d.record = some (.written q) ∧ file = q.file ∧ ∃ pre post, text = pre ++ q.appended ++ post ∧
      Clean written (some (pre ++ post)) ∧ own q.file = q.around (pre ++ post) ∧
      d.files = Function.update own q.file (some (pre ++ q.appended ++ post)) := by
  have hmarker := ((hledger.known q hq).marker_within).trans hin
  cases h with
  | free _ hfiles =>
    rw [hfiles] at hfile
    exact absurd hmarker (hledger.clean file q hq text hfile)
  | recorded p _ _ hfiles =>
    rw [hfiles] at hfile
    exact absurd hmarker (hledger.clean file q hq text hfile)
  | placed p hp hrecord pre post hclean hown hfiles =>
    by_cases hpf : file = p.file
    · subst hpf
      have htext : text = pre ++ p.appended ++ post := by
        rw [hfiles,Function.update_self] at hfile
        exact (Option.some.inj hfile).symm
      have hpre : ¬ nonceMarker q.nonce <:+: pre :=
        fun h => hclean q hq _ rfl (h.trans (List.prefix_append _ _).isInfix)
      have hpost : ¬ nonceMarker q.nonce <:+: post :=
        fun h => hclean q hq _ rfl (h.trans (List.suffix_append _ _).isInfix)
      rw [htext] at hin
      have hqp := hledger.distinct q hq p hp ((hledger.known p hp).nonce_eq
        (hledger.known q hq) hpre hpost hin)
      subst hqp
      exact ⟨hrecord,rfl,pre,post,htext,hclean,hown,hfiles⟩
    · rw [hfiles,Function.update_of_ne hpf] at hfile
      exact absurd hmarker (hledger.clean file q hq text hfile)

/-- Taking the recorded block out leaves the files as they would be without it. -/
lemma Shape.taken (h : Shape own written d) (hq : q ∈ written) {text : Bytes}
    (hfile : d.files q.file = some text)
    (hin : q.appended <:+: text) :
    (d.setFile q.file (q.outside text)).files = own ∧ d.record = some (.written q) := by
  obtain ⟨hrecord,_,pre,post,htext,hclean,hown,hfiles⟩ := h.placed_of_within hledger hq hfile hin
  refine ⟨?_,hrecord⟩
  rw [htext,(hledger.known q hq).outside_eq (hclean q hq _ rfl),← hown]
  change Function.update d.files q.file (own q.file) = own
  rw [hfiles,Function.update_idem,Function.update_eq_self]

/-- With the block out, the record is still there. -/
lemma Shape.of_outside (h : Shape own written d) (hq : q ∈ written) {text : Bytes}
    (hfile : d.files q.file = some text)
    (hin : q.appended <:+: text) : Shape own written (d.setFile q.file (q.outside text)) := by
  obtain ⟨hfiles,hrecord⟩ := h.taken hledger hq hfile hin
  exact .recorded q hq hrecord hfiles

/-- A restore keeps the shape, and makes no record. -/
lemma Shape.of_restored {es : List Effect} {err : List HarnessFault} {w : World}
    (h : Shape own written d) (hq : q ∈ written)
    (hr : Restored q d es err w) :
    Shape own written w.disk ∧ (d.record = none → w.disk.record = none) := by
  cases hr with
  | refused _ hat =>
    rw [hat.1]
    exact ⟨h,fun hnone => hnone⟩
  | nothing _ hfree hremoved =>
    cases hremoved with
    | kept hat =>
      rw [hat.1]
      exact ⟨h,fun hnone => hnone⟩
    | gone raw hraw hown _ hat =>
      rw [hat.1]
      refine ⟨.free (.inl rfl) ?_,fun _ => rfl⟩
      cases h with
      | free _ hfiles => exact hfiles
      | recorded _ _ _ hfiles => exact hfiles
      | placed p hp hrecord pre post _ _ hfiles =>
        rw [hrecord] at hraw
        cases hraw
        have hpq := hledger.distinct p hp q hq (Option.some.inj hown)
        subst hpq
        have hin : p.appended <:+: pre ++ p.appended ++ post := ⟨pre,post,rfl⟩
        exact absurd hin (hfree _ (by rw [hfiles,Function.update_self])).1
  | unsure text effect _ hfile hcopy _ _ hat =>
    rw [hat.1]
    refine ⟨h.of_outside hledger hq hfile hcopy,?_⟩
    intro hnone
    exact hnone
  | taken text effect _ hfile _ hcopy hremoved =>
    obtain ⟨hfiles,hrecord⟩ := h.taken hledger hq hfile hcopy
    refine ⟨?_,?_⟩
    · cases hremoved with
      | kept hat =>
        rw [hat.1]
        exact h.of_outside hledger hq hfile hcopy
      | gone _ _ _ _ hat =>
        rw [hat.1]
        exact .free (.inl rfl) hfiles
    · intro hnone
      rw [hrecord] at hnone
      cases hnone

lemma Shape.of_restoreCut {es : List Effect} {w : World} (h : Shape own written d)
    (hq : q ∈ written)
    (hr : RestoreCut q d es w) : Shape own written w.disk := by
  cases hr with
  | before hat =>
    rw [hat.1]
    exact h
  | after text effect hfile hcopy hat =>
    rw [hat.1]
    exact h.of_outside hledger hq hfile hcopy

/-- No restore of the recorded block is a reason to clear the record unread. -/
lemma Shape.plain_of_restored {es : List Effect} {err : List HarnessFault} {w : World}
    (h : Shape own written d)
    (hq : q ∈ written) (hrecord : d.record = some (.written q)) (hr : Restored q d es err w) :
    Plain err := by
  cases hr with
  | refused _ _ husable hedited =>
    refine ⟨husable (hledger.known q hq).valid,?_⟩
    by_contra hmodified
    rw [Bool.not_eq_false] at hmodified
    obtain ⟨text,hfile,hno,hmarker⟩ := hedited hmodified
    cases h with
    | free hnone _ =>
      rw [hrecord] at hnone
      cases hnone with
      | inl h => cases h
      | inr h => cases h
    | recorded p _ _ hfiles =>
      rw [hfiles] at hfile
      exact hledger.clean q.file q hq text hfile hmarker
    | placed p hp hrecord' pre post _ _ hfiles =>
      rw [hrecord] at hrecord'
      cases hrecord'
      rw [hfiles,Function.update_self] at hfile
      exact hno ⟨pre,post,Option.some.inj hfile⟩
  | nothing _ _ hremoved =>
    cases hremoved with
    | kept _ hplain => exact hplain
    | gone _ _ _ hplain => exact hplain
  | unsure _ _ _ _ _ _ hplain => exact hplain
  | taken _ _ _ _ _ _ hremoved =>
    cases hremoved with
    | kept _ hplain => exact hplain
    | gone _ _ _ hplain => exact hplain

/-- A recovery keeps the shape. Where it reports no fault, no record is left. -/
lemma recoverPendingHarness_triple {es : List Effect} (h : Shape own written d) :
    Triple (At d es) recoverPendingHarness
      (fun err w => Shape own written w.disk ∧ (d.record = none → w.disk.record = none) ∧
        (err = [] → w.disk.record = none))
      (fun _ w => Shape own written w.disk) := by
  have hkept : ∀ w, At d es w → Shape own written w.disk := by
    intro w hat
    rw [hat.1]
    exact h
  refine Triple.bind ((Slot.pending.read_triple _).weaken (fun _ h => h) (fun _ _ h => h)
    (fun _ w h => hkept w h)) (fun r => ?_)
  cases r with
  | absent =>
    refine Triple.pure ?_
    intro w hw
    have hnone : w.disk.record = none := by
      rw [hw.2.1]
      exact hw.1
    exact ⟨hkept w hw.2,fun _ => hnone,fun _ => hnone⟩
  | refused =>
    refine Triple.pure ?_
    intro w hw
    refine ⟨hkept w hw.2,?_,?_⟩
    · intro hnone
      rw [hw.2.1]
      exact hnone
    · intro herr
      cases herr
  | ok raw =>
    intro w hw
    have hraw : d.record = some raw := hw.1.1
    refine (?_ : Triple (At d es) _ _ _) w hw.2
    cases hstrict : raw.strict with
    | none =>
      have hfiles : d.files = own := by
        cases h with
        | free _ hfiles => exact hfiles
        | recorded _ _ _ hfiles => exact hfiles
        | placed p _ hrecord =>
          rw [hrecord] at hraw
          cases hraw
          cases hstrict
      simp only [hstrict]
      refine Triple.bind (Slot.pending.remove_triple.weaken (fun _ h => h) (fun _ _ h => h)
        (fun _ w h => hkept w h)) (fun err => ?_)
      refine Triple.pure ?_
      intro w hw
      cases hw with
      | refused _ hat =>
        refine ⟨hkept w hat,?_,?_⟩
        · intro hnone
          rw [hraw] at hnone
          cases hnone
        · intro herr
          cases herr
      | done _ hat =>
        rw [hat.1]
        exact ⟨.free (.inl rfl) hfiles,fun _ => rfl,fun _ => rfl⟩
    | some p =>
      obtain ⟨hp,hwritten⟩ := h.strict_mem hraw hstrict
      subst hwritten
      refine Triple.bind ((restoreRecorded_triple p).weaken (fun _ h => h) (fun _ _ h => h)
        (fun _ w hr => h.of_restoreCut hledger hp hr)) (fun err => ?_)
      intro w hw
      have hplain := h.plain_of_restored hledger hp hraw hw
      have hrun : ∀ x y : Act (List HarnessFault), (if err.any HarnessFault.unusable = true then x
          else if err.any HarnessFault.modified = true then y else pure err) = pure err := by
        intro x y
        rw [hplain.1,hplain.2]
        rfl
      rw [hrun]
      refine Triple.pure (fun w hw => ?_) w hw
      obtain ⟨hshape,hnone⟩ := h.of_restored hledger hp hw
      refine ⟨hshape,hnone,?_⟩
      intro herr
      subst herr
      exact record_of_restored hraw hw

lemma restoreHeldBlock_triple {es : List Effect} (nonce : Bytes) (h : Shape own written d) :
    Triple (At d es) (restoreHeldBlock nonce)
      (fun _ w => Shape own written w.disk ∧ (d.record = none → w.disk.record = none)) (fun _ w =>
        Shape own written w.disk) := by
  have hkept : ∀ w, At d es w → Shape own written w.disk ∧
    (d.record = none → w.disk.record = none) := by
    intro w hat
    rw [hat.1]
    exact ⟨h,fun hnone => hnone⟩
  refine Triple.bind ((Slot.pending.read_triple _).weaken (fun _ h => h) (fun _ _ h => h)
    (fun _ w h => (hkept w h).1)) (fun r => ?_)
  cases r with
  | absent => exact Triple.pure (fun w hw => hkept w hw.2)
  | refused => exact Triple.pure (fun w hw => hkept w hw.2)
  | ok raw =>
    intro w hw
    have hraw : d.record = some raw := hw.1.1
    refine (?_ : Triple (At d es) _ _ _) w hw.2
    cases hstrict : raw.strict with
    | none =>
      simp only [hstrict]
      exact Triple.pure hkept
    | some p =>
      obtain ⟨hp,_⟩ := h.strict_mem hraw hstrict
      simp only [hstrict]
      refine Triple.ite ?_ ?_
      · intro _
        exact Triple.pure hkept
      · intro _
        exact (restoreRecorded_triple p).weaken (fun _ h => h) (fun _ _ hr =>
          h.of_restored hledger hp hr)
          (fun _ _ hr => h.of_restoreCut hledger hp hr)

end shape

/-- What holds of the checkout in every state. -/
structure Site.Kept (s : Site) : Prop where
  ledger : Ledger s.own s.written
  shape : Shape s.own s.written s.disk
  memory : ∀ m ∈ s.memory, m.pending ∈ s.written
  entered : s.entered = true → s.disk.record = none

section steps
variable {s : Site}

lemma kept_start (files : String → Option Bytes) : (Site.start files).Kept := by
  refine ⟨⟨?_,?_,?_⟩,.free (.inl rfl) rfl,?_,fun _ => rfl⟩
  · intro p hp
    cases hp
  · intro p hp
    cases hp
  · intro file p hp
    cases hp
  · intro m hm
    cases hm

/-- A program that is cut off keeps the shape of the disk. -/
lemma Site.Kept.cutOff (h : s.Kept) {d : Disk} (hshape : Shape s.own s.written d) :
    ({ s with disk := d, entered := false, memory := [] } : Site).Kept := by
  refine ⟨h.ledger,hshape,?_,?_⟩
  · intro m hm
    cases hm
  · intro he
    cases he

lemma Site.Kept.recover (h : s.Kept) (outcomes : List Outcome) :
    (s.step (.recover outcomes)).Kept := by
  have hrun := recoverPendingHarness_triple h.ledger h.shape (s.world outcomes) ⟨rfl,rfl⟩
  rw [Site.step]
  cases hr : recoverPendingHarness (s.world outcomes) with
  | mk r w =>
    cases r with
    | error e =>
      exact h.cutOff (hrun.2 e w hr)
    | ok err =>
      obtain ⟨hshape,hnone,hdone⟩ := hrun.1 err w hr
      refine ⟨h.ledger,hshape,h.memory,?_⟩
      intro he
      cases hs : s.entered with
      | true => exact hnone (h.entered hs)
      | false =>
        have hempty : (s.entered || err.isEmpty) = true := he
        rw [hs,Bool.false_or,List.isEmpty_iff] at hempty
        exact hdone hempty

lemma Site.Kept.restore (h : s.Kept) {m : HarnessMaterialisation} (hm : m ∈ s.memory)
    (outcomes : List Outcome) :
    (s.step (.restore m outcomes)).Kept := by
  have hrun := restoreRecorded_triple m.pending (s.world outcomes) ⟨rfl,rfl⟩
  have hp := h.memory m hm
  rw [Site.step]
  cases hr : m.restore (s.world outcomes) with
  | mk r w =>
    cases r with
    | error e =>
      exact h.cutOff (h.shape.of_restoreCut h.ledger hp (hrun.2 e w hr))
    | ok err =>
      obtain ⟨hshape,hnone⟩ := h.shape.of_restored h.ledger hp (hrun.1 err w hr)
      exact ⟨h.ledger,hshape,h.memory,fun he => hnone (h.entered he)⟩

lemma Site.Kept.held (h : s.Kept) (nonce : Bytes) (outcomes : List Outcome) :
    (s.step (.held nonce outcomes)).Kept := by
  have hrun := restoreHeldBlock_triple h.ledger nonce h.shape (s.world outcomes) ⟨rfl,rfl⟩
  rw [Site.step]
  cases hr : restoreHeldBlock nonce (s.world outcomes) with
  | mk r w =>
    cases r with
    | error e =>
      exact h.cutOff (hrun.2 e w hr)
    | ok err =>
      obtain ⟨hshape,hnone⟩ := hrun.1 err w hr
      exact ⟨h.ledger,hshape,h.memory,fun he => hnone (h.entered he)⟩

lemma Site.Kept.edit (h : s.Kept) {file : String} {content : Option Bytes}
    (hfree : ∀ p ∈ s.written, ¬ s.Holds p file)
    (hclean : Clean s.written content) : (s.step (.edit file content)).Kept := by
  refine ⟨⟨h.ledger.known,h.ledger.distinct,?_⟩,?_,h.memory,h.entered⟩
  · intro f
    change Clean s.written (Function.update s.own file content f)
    by_cases hf : f = file
    · rw [hf,Function.update_self]
      exact hclean
    · rw [Function.update_of_ne hf]
      exact h.ledger.clean f
  · have hset : ∀ d : Disk, d.files = s.own →
      (d.setFile file content).files = Function.update s.own file content := by
      intro d hd
      rw [← hd]
      rfl
    cases h.shape with
    | free hrecord hfiles => exact .free hrecord (hset s.disk hfiles)
    | recorded p hp hrecord hfiles => exact .recorded p hp hrecord (hset s.disk hfiles)
    | placed p hp hrecord pre post hc hown hfiles =>
      have hne : p.file ≠ file := by
        intro hpf
        apply hfree p hp
        refine ⟨pre ++ p.appended ++ post,?_,⟨pre,post,rfl⟩⟩
        rw [hfiles,← hpf,Function.update_self]
      refine .placed p hp hrecord pre post hc ?_ ?_
      · change Function.update s.own file content p.file = _
        rw [Function.update_of_ne hne]
        exact hown
      · change Function.update s.disk.files file content = Function.update
          (Function.update s.own file content) p.file _
        rw [hfiles,Function.update_comm hne.symm]

lemma Site.Kept.editAround (h : s.Kept) {p : PendingRestore} {pre post : Bytes} (hp : p ∈ s.written)
    (hholds : s.Holds p p.file)
    (hclean : Clean s.written (some (pre ++ post))) : (s.step (.editAround p pre post)).Kept := by
  obtain ⟨text,hfile,hin⟩ := hholds
  obtain ⟨hrecord,_,_,_,_,_,_,hfiles⟩ := h.shape.placed_of_within h.ledger hp hfile hin
  refine ⟨⟨h.ledger.known,h.ledger.distinct,?_⟩,?_,h.memory,h.entered⟩
  · intro f
    change Clean s.written (Function.update s.own p.file (p.around (pre ++ post)) f)
    by_cases hf : f = p.file
    · rw [hf,Function.update_self]
      unfold PendingRestore.around
      split_ifs
      · intro q _ text htext
        cases htext
      · exact hclean
    · rw [Function.update_of_ne hf]
      exact h.ledger.clean f
  · refine .placed p hp hrecord pre post hclean (Function.update_self _ _ _) ?_
    change Function.update s.disk.files p.file _ = Function.update
      (Function.update s.own p.file _) p.file _
    rw [hfiles,Function.update_idem,Function.update_idem]

lemma separator_lines (before : Bytes) : ∀ b ∈ separator before, b = 10 := by
  intro b hb
  unfold separator at hb
  have hlines : ∀ b ∈ ascii "\n\n", b = 10 := by set_option maxRecDepth 20000 in decide
  have hline : ∀ b ∈ ascii "\n", b = 10 := by set_option maxRecDepth 20000 in decide
  split at hb
  · cases hb
  · split_ifs at hb
    · exact hlines b hb
    · exact hline b hb

/-- The record that a materialisation sets out to write is one of a block as Manvi writes it. -/
lemma known_of_intended {provider : String} {spec : HarnessSpec} {nonce : Option Bytes} {d : Disk}
    {p : PendingRestore}
    (hspec : spec.Validated) (h : intended provider spec nonce d = some p) :
    Known p ∧ nonce = some p.nonce := by
  unfold intended at h
  cases hfile : harnessInstructionFile provider with
  | none =>
    rw [hfile] at h
    cases h
  | some file =>
    cases nonce with
    | none =>
      rw [hfile] at h
      cases h
    | some n =>
      simp only [hfile] at h
      cases hblock : renderHarnessBlock spec n with
      | error e =>
        rw [hblock] at h
        cases h
      | ok block =>
        simp only [hblock] at h
        split_ifs at h with hgood
        cases h
        refine ⟨⟨hgood.2,separator _,block,rfl,separator_lines _,?_⟩,rfl⟩
        exact framed_of_render hspec (PendingRestore.nonceForm_of_valid hgood.2) hblock hgood.1

lemma intended_of_accepted {provider : String} {spec : HarnessSpec} {nonce : Option Bytes}
    {d : Disk}
    {m : HarnessMaterialisation} (h : Accepted provider spec nonce d m) :
    intended provider spec nonce d = some m.pending := by
  obtain ⟨block,hblock,hne,hpending⟩ := h.block
  unfold intended
  rw [h.file,h.nonce]
  simp only [hblock]
  rw [← hpending,if_pos ⟨hne,h.valid⟩]

/-- A block is entered into the ledger before it is written. -/
lemma Site.Kept.enter (h : s.Kept) (provider : String) {spec : HarnessSpec} {nonce : Option Bytes}
    (hentered : s.entered = true)
    (hspec : spec.Validated) (hfresh : ∀ n, nonce = some n → s.Fresh n) :
    Ledger s.own (s.written ++ (intended provider spec nonce s.disk).toList) ∧
    s.disk.files = s.own := by
  have hfiles : s.disk.files = s.own := by
    have hnone := h.entered hentered
    cases h.shape with
    | free _ hfiles => exact hfiles
    | recorded _ _ _ hfiles => exact hfiles
    | placed p _ hrecord =>
      rw [hnone] at hrecord
      cases hrecord
  refine ⟨?_,hfiles⟩
  cases hp : intended provider spec nonce s.disk with
  | none =>
    simp only [Option.toList_none,List.append_nil]
    exact h.ledger
  | some p =>
    obtain ⟨hknown,hnonce⟩ := known_of_intended hspec hp
    obtain ⟨hnew,hunused⟩ := hfresh p.nonce hnonce
    simp only [Option.toList_some]
    refine ⟨?_,?_,?_⟩
    · intro q hq
      rw [List.mem_append,List.mem_singleton] at hq
      cases hq with
      | inl hq => exact h.ledger.known q hq
      | inr hq => exact hq ▸ hknown
    · intro q hq r hr hqr
      rw [List.mem_append,List.mem_singleton] at hq hr
      cases hq with
      | inl hq =>
        cases hr with
        | inl hr => exact h.ledger.distinct q hq r hr hqr
        | inr hr => exact absurd (hqr.trans (congrArg PendingRestore.nonce hr)) (hnew q hq)
      | inr hq =>
        cases hr with
        | inl hr => exact absurd (hqr.symm.trans (congrArg PendingRestore.nonce hq)) (hnew r hr)
        | inr hr => rw [hq,hr]
    · intro file q hq text htext
      rw [List.mem_append,List.mem_singleton] at hq
      cases hq with
      | inl hq => exact h.ledger.clean file q hq text htext
      | inr hq =>
        rw [hq]
        rw [← hfiles] at htext
        exact hunused file text htext

/-- A materialisation that leaves no new file unfinished keeps the shape. -/
lemma shape_of_materialises {own : String → Option Bytes} {written : List PendingRestore} {d : Disk}
    {w : World}
    {provider : String} {spec : HarnessSpec} {nonce : Option Bytes} (hledger : Ledger own written)
    (hfiles : d.files = own)
    (hrecord : d.record = none) (hintended : ∀ p, intended provider spec nonce d = some p →
      p ∈ written)
    (hwhole : ∀ file, harnessInstructionFile provider = some file → .tore file ∉ w.effects)
    (h : Materialises provider spec nonce d w) : Shape own written w.disk := by
  cases h with
  | inl hsame =>
    rw [hsame]
    exact .free (.inl hrecord) hfiles
  | inr hput =>
    obtain ⟨m,haccepted,hstate⟩ := hput
    have hm := hintended m.pending (intended_of_accepted haccepted)
    have hfile : m.pending.file = m.file := by
      obtain ⟨block,_,_,hpending⟩ := haccepted.block
      rw [hpending]
      rfl
    cases hstate with
    | torn _ htore => exact absurd htore (hwhole m.file haccepted.file)
    | outside hsame hrec =>
      rw [hfiles] at hsame
      rw [hrecord] at hrec
      obtain hrec | hrec | hrec | hrec := hrec
      · exact .free (.inl hrec) hsame
      · exact .free (.inl hrec) hsame
      · exact .recorded m.pending hm hrec hsame
      · exact .free (.inr hrec) hsame
    | placed hplaced hrec =>
      refine .placed m.pending hm hrec ((d.files m.file).getD []) [] ?_ ?_ ?_
      · rw [List.append_nil]
        cases hcontent : d.files m.file with
        | none =>
          intro q _ text htext
          cases htext
          exact not_infix_nil (by simp [nonceMarker,ascii])
        | some before =>
          rw [hfiles] at hcontent
          have hclean := hledger.clean m.file
          rw [hcontent] at hclean
          exact hclean
      · obtain ⟨block,_,_,hpending⟩ := haccepted.block
        have hexisted : m.pending.existed = (d.files m.file).isSome := by
          rw [hpending]
          rfl
        unfold PendingRestore.around
        rw [List.append_nil,hfile,hexisted,hfiles]
        cases own m.file with
        | none => rw [if_pos ⟨rfl,trimSpace_nil⟩]
        | some before => rw [if_neg (by simp)]; rfl
      · rw [hplaced,hfiles,hfile,List.append_nil]

lemma Site.Kept.materialise (h : s.Kept) {provider : String} {spec : HarnessSpec}
    {nonce : Option Bytes}
    {outcomes : List Outcome} (hentered : s.entered = true) (hspec : spec.Validated)
    (hfresh : ∀ n, nonce = some n → s.Fresh n)
    (hwhole : s.Whole (.materialise provider spec nonce outcomes)) :
    (s.step (.materialise provider spec nonce outcomes)).Kept := by
  obtain ⟨hledger,hfiles⟩ := h.enter provider hentered hspec hfresh
  have hrun := materialiseHarness_triple provider spec nonce (s.world outcomes) ⟨rfl,rfl⟩
  have hintended : ∀ p, intended provider spec nonce s.disk = some p →
      p ∈ s.written ++ (intended provider spec nonce s.disk).toList := by
    intro p hp
    rw [hp]
    exact List.mem_append_right _ (List.mem_singleton_self p)
  have hshape : ∀ w, (materialiseHarness provider spec nonce (s.world outcomes)).2 = w →
      Materialises provider spec nonce s.disk w →
      Shape s.own (s.written ++ (intended provider spec nonce s.disk).toList) w.disk := by
    intro w hw hmat
    subst hw
    exact shape_of_materialises hledger hfiles (h.entered hentered) hintended hwhole hmat
  rw [Site.step]
  cases hr : materialiseHarness provider spec nonce (s.world outcomes) with
  | mk r w =>
    have hw : (materialiseHarness provider spec nonce (s.world outcomes)).2 = w := by rw [hr]
    cases r with
    | error e =>
      refine ⟨hledger,hshape w hw (hrun.2 e w hr),?_,?_⟩
      · intro m hm
        cases hm
      · intro he
        cases he
    | ok r =>
      obtain ⟨haccepted,hmat⟩ := hrun.1 r w hr
      refine ⟨hledger,hshape w hw hmat,?_,?_⟩
      · intro m hm
        change m ∈ s.memory ++ r.1.toList at hm
        rw [List.mem_append,Option.mem_toList] at hm
        cases hm with
        | inl hm => exact List.mem_append_left _ (h.memory m hm)
        | inr hm => exact hintended m.pending (intended_of_accepted (haccepted m hm))
      · intro he
        cases he

lemma Site.Kept.step (h : s.Kept) {move : Move} (hallowed : s.Allowed move)
    (hwhole : s.Whole move) : (s.step move).Kept := by
  cases move with
  | recover outcomes => exact h.recover outcomes
  | materialise provider spec nonce outcomes =>
    exact h.materialise hallowed.1 hallowed.2.1 hallowed.2.2 hwhole
  | restore m outcomes => exact h.restore hallowed outcomes
  | held nonce outcomes => exact h.held nonce outcomes
  | edit file content => exact h.edit hallowed.1 hallowed.2
  | editAround p pre post => exact h.editAround hallowed.1 hallowed.2.1 hallowed.2.2
  | crash => exact h.cutOff h.shape

lemma kept_of_reachable {files : String → Option Bytes}
    (h : Reachable (fun s move => s.Allowed move ∧ s.Whole move) files s) :
    s.Kept := by
  induction h with
  | start => exact kept_start files
  | step move _ hmove ih => exact ih.step hmove.1 hmove.2

lemma Site.Kept.recorded (h : s.Kept) : s.Recorded := by
  intro p hp file hholds
  obtain ⟨text,hfile,hin⟩ := hholds
  exact ⟨_,(h.shape.placed_of_within h.ledger hp hfile hin).1,rfl⟩

/-- A recovery of a written record that meets no failure. -/
lemma recover_written_done {w w' : World} {p : PendingRestore} {rest : List Outcome}
    (hrecord : w.disk.record = some (.written p))
    (houtcomes : w.outcomes = .done :: rest)
    (hrun : restoreRecorded p { w with outcomes := rest } = (.ok [],w')) :
    recoverPendingHarness w = (.ok [],w') := by
  simp [recoverPendingHarness,bind,Prog.bind,readRecord,Slot.read,Slot.pending,nextOutcome,
    houtcomes,hrecord,
    Prog.read,pure,Prog.pure,RecordText.written,hrun]

/-- The recorded block is in its file, or nothing in the file carries its marker. -/
lemma Site.Kept.unedited (h : s.Kept) {p : PendingRestore} (hp : p ∈ s.written)
    (hrecord : s.disk.record = some (.written p)) :
    ∀ text, s.disk.files p.file = some text → p.appended <:+: text ∨
    ¬ nonceMarker p.nonce <:+: text := by
  intro text hfile
  cases h.shape with
  | free _ hfiles =>
    rw [hfiles] at hfile
    exact .inr (h.ledger.clean p.file p hp text hfile)
  | recorded _ _ _ hfiles =>
    rw [hfiles] at hfile
    exact .inr (h.ledger.clean p.file p hp text hfile)
  | placed q _ hrecord' pre post _ _ hfiles =>
    rw [hrecord] at hrecord'
    cases hrecord'
    rw [hfiles,Function.update_self] at hfile
    exact .inl ⟨pre,post,Option.some.inj hfile⟩

lemma Site.Kept.recovers (h : s.Kept) : s.Recovers := by
  intro rest hfits
  have hwritten : ∀ p ∈ s.written, s.disk.record = some (.written p) →
      ∃ err w, recoverPendingHarness (s.world (List.replicate 5 .done ++ rest)) = (.ok err,w) ∧
        w.disk.files = s.own ∧ w.disk.record = none := by
    intro p hp hrecord
    obtain ⟨w,hrun⟩ := restoreRecorded_done (w := s.world (List.replicate 4 .done ++ rest))
      (h.ledger.known p hp).valid
      (fun text => hfits p.file text (PendingRestore.isInstructionFile_of_valid
        (h.ledger.known p hp).valid)) (h.unedited hp hrecord) (.inr hrecord) rfl
    have hrecover := recover_written_done (w := s.world (List.replicate 5 .done ++
      rest)) hrecord rfl hrun
    obtain ⟨hshape,_,hdone⟩ :=
      (recoverPendingHarness_triple h.ledger h.shape (s.world (List.replicate 5 .done ++ rest))
      ⟨rfl,rfl⟩).1 [] w hrecover
    refine ⟨[],w,hrecover,?_,hdone rfl⟩
    cases hshape with
    | free _ hfiles => exact hfiles
    | recorded _ _ _ hfiles => exact hfiles
    | placed q _ hrecord' =>
      rw [hdone rfl] at hrecord'
      cases hrecord'
  cases h.shape with
  | recorded p hp hrecord _ => exact hwritten p hp hrecord
  | placed p hp hrecord => exact hwritten p hp hrecord
  | free hrecord hfiles =>
    cases hrecord with
    | inl hnone =>
      refine ⟨[],{ s.world (List.replicate 5 .done ++ rest) with
        outcomes := List.replicate 4 .done ++ rest },?_,hfiles,hnone⟩
      simp [recoverPendingHarness,bind,Prog.bind,readRecord,Slot.read,Slot.pending,nextOutcome,
        Site.world,hnone,
        Prog.read,pure,Prog.pure,List.replicate_succ]
    | inr hunreadable =>
      refine ⟨[.unreadableRecord],⟨{ s.disk with record := none },List.replicate 3 .done ++ rest,
        [.removed harnessPendingFile]⟩,
        ?_,hfiles,rfl⟩
      simp [recoverPendingHarness,bind,Prog.bind,readRecord,Slot.read,Slot.pending,nextOutcome,
        Site.world,hunreadable,
        Prog.read,pure,Prog.pure,List.replicate_succ,RecordText.unreadable,Slot.remove,Slot.set,
        Prog.modify]

end steps

/-- In every run in which no write of a block leaves a new instruction file unfinished, a block that
is in an instruction file has its record, and a recovery whose operations succeed leaves the files
as they were without it. -/
theorem never_stranded {files : String → Option Bytes} {s : Site}
    (h : Reachable (fun s move => s.Allowed move ∧ s.Whole move) files s) :
    s.Recorded ∧ s.Recovers := by
  have hkept := kept_of_reachable h
  exact ⟨hkept.recorded,hkept.recovers⟩

/-- A checkout in which an attempt has entered and written its block. -/
def sampleSite : Site :=
  ((Site.start sampleCheckout.disk.files).step (.recover [.done])).step
    (.materialise "codex" sampleSpec (some sampleNonce) (List.replicate 3 .done))

lemma sampleSpec_validated : sampleSpec.Validated := by
  refine ⟨by decide,?_,by decide⟩
  decide

lemma marker_notInfix_sample (file : String) (text : Bytes)
    (h : sampleCheckout.disk.files file = some text) :
    ¬ nonceMarker sampleNonce <:+: text := by
  have hfile : (if file = "AGENTS.md" then some (ascii "x\n") else none) = some text := h
  split_ifs at hfile
  cases hfile
  rw [← contains_iff]
  decide

/-- A run in which the block is written in full. -/
theorem never_stranded_sampleSite :
    Reachable (fun s move => s.Allowed move ∧ s.Whole move) sampleCheckout.disk.files sampleSite ∧
    sampleSite.Recorded ∧ sampleSite.Recovers := by
  have hreach : Reachable (fun s move => s.Allowed move ∧
    s.Whole move) sampleCheckout.disk.files sampleSite := by
    refine .step _ (.step _ .start ⟨trivial,trivial⟩) ⟨⟨rfl,sampleSpec_validated,?_⟩,?_⟩
    · intro n hn
      cases hn
      refine ⟨?_,marker_notInfix_sample⟩
      intro p hp
      cases hp
    · intro file hfile
      cases hfile
      decide +kernel
  exact ⟨hreach,never_stranded hreach⟩

/-- The process ends between the creation of the instruction file and the write of its bytes. -/
def tornSite : Site :=
  ((Site.start (fun _ => none)).step (.recover [.done])).step
    (.materialise "codex" sampleSpec (some sampleNonce) [.done,.done,.torn 0 .ended])

/-- The recovery finds no block in the new file, clears the record and leaves the file behind. -/
theorem created_file_stranded :
    Reachable (fun s move => s.Allowed move) (fun _ => none) tornSite ∧ ¬ tornSite.Recovers := by
  refine ⟨?_,?_⟩
  · refine .step _ (.step _ .start trivial) ⟨rfl,sampleSpec_validated,?_⟩
    intro n hn
    cases hn
    refine ⟨?_,?_⟩
    · intro p hp
      cases hp
    · intro file text htext
      cases htext
  · intro hrecovers
    have hfits : ∀ file text, isInstructionFile file = true → tornSite.disk.files file = some text →
        text.length ≤ maxInstructionFileBytes := by
      intro file text hfile htext
      have hall : ∀ file ∈ ["CLAUDE.md","AGENTS.md"], (tornSite.disk.files file).all
          (fun text => text.length ≤ maxInstructionFileBytes) = true := by decide +kernel
      have hmem : file ∈ ["CLAUDE.md","AGENTS.md"] := by simpa [isInstructionFile] using hfile
      have hone := hall file hmem
      rw [htext] at hone
      exact of_decide_eq_true hone
    obtain ⟨err,w,hrun,hfiles,_⟩ := hrecovers [] hfits
    have hleft : ((recoverPendingHarness (tornSite.world (List.replicate 5 .done ++
      []))).2.disk.files "AGENTS.md").isSome = true := by
      decide +kernel
    have hown : (tornSite.own "AGENTS.md").isSome = false := by decide +kernel
    rw [hrun,hfiles,hown] at hleft
    exact Bool.false_ne_true hleft

end Manvi.Managed
