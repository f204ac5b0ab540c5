import Manvi.Session.Trim

/-! A trimmed log projects a suffix of what the whole log projects. -/
namespace Manvi.Session
open Manvi.Encoding Manvi.LLM

/-- Whether an event adds to the projected history. -/
def projects (e : Event) : Bool :=
  match Entry.read e with
  | .ok (.message _) => true
  | .ok (.result _ _) => true
  | _ => false

/-- Whether the first projected event of every turn is a user message; awaiting says that a turn
has begun and projected nothing yet. -/
def opensWithUser : Bool → List Event → Bool
  | _,[] => true
  | awaiting,e :: rest =>
    if e.type = .turnStart then opensWithUser true rest
    else if projects e then (!awaiting || e.type = .userMessage) && opensWithUser false rest
    else opensWithUser awaiting rest

/-- Whether every compaction record names its result by sequence. -/
def compactionsNamed (events : List Event) : Bool :=
  events.all (fun e => e.type ≠ .toolResultCompacted ||
    match CompactionData.unmarshal e.data with
    | .ok c => 0 < c.resultSeq
    | .error _ => false)

/-- Whether every compaction record comes after the result it names. -/
def compactionsFollow (events : List Event) : Bool :=
  events.all (fun e => e.type ≠ .toolResultCompacted ||
    match CompactionData.unmarshal e.data with
    | .ok c => c.resultSeq < e.seq
    | .error _ => false)

/-! Stream chunks project nothing. -/

lemma persistable_reads {es : List Event} {xs : List Entry} (h : List.Forall₂ Entry.Reads es xs) :
    ∃ ys, List.Forall₂ Entry.Reads (es.filter (fun e => e.type ≠ .assistantChunk)) ys ∧
      (∀ l, ys.foldl Ledger.record l = xs.foldl Ledger.record l) ∧
      ∀ l h, ys.foldl (History.record l) h = xs.foldl (History.record l) h := by
  induction h with
  | nil => exact ⟨[],.nil,fun _ => rfl,fun _ _ => rfl⟩
  | cons hx _ ih =>
    rename_i e x es xs _
    obtain ⟨ys,hys,hl,hh⟩ := ih
    by_cases hc : e.type = .assistantChunk
    · have hneutral : x = .neutral :=
        Except.ok.inj (hx.symm.trans (Entry.reads_neutral (by rw [hc]; rfl)))
      subst hneutral
      refine ⟨ys,?_,hl,hh⟩
      simpa [hc] using hys
    · refine ⟨x :: ys,?_,fun l => hl _,fun l h => hh l _⟩
      have : (e :: es).filter (fun e => e.type ≠ .assistantChunk) =
          e :: es.filter (fun e => e.type ≠ .assistantChunk) := by simp [hc]
      rw [this]
      exact .cons hx hys

/-! The compactions before a cut do not reach past it. -/

/-- Two ledgers shorten one result alike. -/
def Ledger.AgreeAt (l l' : Ledger) (seq : ℤ) (id : CallID) : Prop :=
  l.bySeq.get seq = l'.bySeq.get seq ∧ l.compacted.get id = l'.compacted.get id

lemma Ledger.AgreeAt.record {l l' : Ledger} {seq : ℤ} {id : CallID} (h : l.AgreeAt l' seq id)
    (x : Entry) : (l.record x).AgreeAt (l'.record x) seq id := by
  cases x with
  | neutral => exact h
  | message m => exact h
  | result s d => exact h
  | compaction c =>
    obtain ⟨h1,h2⟩ := h
    unfold Ledger.record
    dsimp only
    split_ifs with hpos
    · exact ⟨by simp only [Table.get_set,h1],h2⟩
    · exact ⟨h1,by simp only [Table.get_set,h2]⟩

lemma Ledger.AgreeAt.foldl {l l' : Ledger} {seq : ℤ} {id : CallID} (h : l.AgreeAt l' seq id)
    (xs : List Entry) : (xs.foldl Ledger.record l).AgreeAt (xs.foldl Ledger.record l') seq id := by
  induction xs generalizing l l' with
  | nil => exact h
  | cons x xs ih => exact ih (h.record x)

lemma Ledger.AgreeAt.resultContent {l l' : Ledger} {seq : ℤ} {d : ToolResultData}
    (h : l.AgreeAt l' seq d.toolCallID) : l.resultContent seq d = l'.resultContent seq d := by
  simp only [Ledger.resultContent,shortened,h.1,h.2]

/-- Records that name other results by sequence leave a result alone. -/
lemma ledger_agreeAt_zero {seq : ℤ} (id : CallID) {xs : List Entry}
    (h : ∀ c, .compaction c ∈ xs → 0 < c.resultSeq ∧ c.resultSeq ≠ seq) :
    (xs.foldl Ledger.record Ledger.zero).AgreeAt Ledger.zero seq id := by
  have hstep : ∀ l : Ledger, l.AgreeAt Ledger.zero seq id →
      (xs.foldl Ledger.record l).AgreeAt Ledger.zero seq id := by
    induction xs with
    | nil => exact fun l hl => hl
    | cons x xs ih =>
      intro l hl
      refine ih (fun c hc => h c (by simp [hc])) _ ?_
      cases x with
      | neutral => exact hl
      | message m => exact hl
      | result s d => exact hl
      | compaction c =>
        obtain ⟨hpos,hne⟩ := h c (by simp)
        refine ⟨?_,?_⟩
        · simp only [Ledger.record,gt_iff_lt,hpos,if_true,Table.get_set_of_ne _ hne.symm]
          exact hl.1
        · simp only [Ledger.record,gt_iff_lt,hpos,if_true]
          exact hl.2
  exact hstep _ ⟨rfl,rfl⟩

/-- What follows a cut replays under its own compactions as it does under all of them. -/
lemma agree_past_cut {pre suf : List Event} {xpre xsuf : List Entry}
    (hpre : List.Forall₂ Entry.Reads pre xpre) (hsuf : List.Forall₂ Entry.Reads suf xsuf)
    (hord : ∀ a ∈ pre, ∀ b ∈ suf, a.seq < b.seq) (hn : compactionsNamed pre = true)
    (hf : compactionsFollow pre = true) :
    ∀ x ∈ xsuf, (ledgerOf (xpre ++ xsuf)).Agree (ledgerOf xsuf) x := by
  intro x hx
  cases x with
  | neutral => trivial
  | message m => trivial
  | compaction c => trivial
  | result seq d =>
    obtain ⟨b,hb,hread⟩ := forall₂_mem_right hsuf hx
    have hbseq := hread.seq.1
    apply Ledger.AgreeAt.resultContent
    rw [ledgerOf,List.foldl_append]
    apply Ledger.AgreeAt.foldl
    apply ledger_agreeAt_zero
    intro c hc
    obtain ⟨a,ha,hra⟩ := forall₂_mem_right hpre hc
    obtain ⟨ht,hu⟩ := hra.compaction
    have h1 := List.all_eq_true.mp hn a ha
    have h2 := List.all_eq_true.mp hf a ha
    have h3 := hord a ha b hb
    simp [ht,hu] at h1 h2
    exact ⟨h1,by omega⟩

/-! Replaying from a turn boundary. -/

/-- The history is the other one with earlier messages in front. -/
def History.Extends (h h' : History) (base : List Message) : Prop :=
  h.messages = base ++ h'.messages ∧ h.pending = h'.pending

namespace History.Extends
variable {h h' : History} {base : List Message}

lemma flushPending (he : h.Extends h' base) : h.flushPending.Extends h'.flushPending base := by
  obtain ⟨hm,hp⟩ := he
  unfold History.flushPending
  rw [hp]
  split_ifs
  · exact ⟨hm,hp⟩
  · exact ⟨by simp [hm],rfl⟩

lemma record (he : h.Extends h' base) (l : Ledger) (x : Entry) :
    (h.record l x).Extends (h'.record l x) base := by
  cases x with
  | neutral => exact he
  | compaction c => exact he
  | message m =>
    obtain ⟨hm,hp⟩ := he.flushPending
    exact ⟨by simp [History.record,History.addMessage,hm],hp⟩
  | result seq d => exact ⟨he.1,by simp [History.record,History.addResult,he.2]⟩

lemma foldl (he : h.Extends h' base) (l : Ledger) (xs : List Entry) :
    (xs.foldl (History.record l) h).Extends (xs.foldl (History.record l) h') base := by
  induction xs generalizing h h' with
  | nil => exact he
  | cons x xs ih => exact ih (he.record l x)

lemma derived (he : h.Extends h' base) : h'.derived <:+ h.derived := by
  rw [derived_eq_flushPending,derived_eq_flushPending,he.flushPending.1]
  exact List.suffix_append _ _

end History.Extends

/-- A replay that opens with a message closes whatever was open before it. -/
lemma derived_suffix {es : List Event} {xs : List Entry} (hx : List.Forall₂ Entry.Reads es xs)
    (ho : opensWithUser true es = true) (l : Ledger) (h : History) :
    (xs.foldl (History.record l) History.zero).derived <:+
    (xs.foldl (History.record l) h).derived := by
  induction hx with
  | nil => exact List.nil_suffix
  | cons hx _ ih =>
    rename_i e x es xs _
    unfold opensWithUser at ho
    have hread : Entry.read e = .ok x := hx
    by_cases ht : e.type = .turnStart
    · rw [if_pos ht] at ho
      have hneutral : x = .neutral :=
        Except.ok.inj (hx.symm.trans (Entry.reads_neutral (by rw [ht]; rfl)))
      subst hneutral
      exact ih ho
    · rw [if_neg ht] at ho
      cases x with
      | neutral =>
        rw [projects,hread,if_neg (by simp)] at ho
        exact ih ho
      | compaction c =>
        rw [projects,hread,if_neg (by simp)] at ho
        exact ih ho
      | message m =>
        have hext : (h.addMessage m).Extends
          (History.zero.addMessage m) h.flushPending.messages := by
          refine ⟨rfl,?_⟩
          simp only [History.addMessage,History.flushPending,History.zero]
          split_ifs with hp
          · exact hp
          · rfl
        exact (hext.foldl l xs).derived
      | result seq d =>
        rw [projects,hread,if_pos (by simp),(hx.seq).2] at ho
        simp at ho

lemma opensWithUser_drop {awaiting : Bool} {pre kept : List Event}
    (h : opensWithUser awaiting (pre ++ kept) = true) (hb : TurnBoundary kept) :
    opensWithUser true kept = true := by
  obtain ⟨prompts,ts,rest,rfl,ht,hp⟩ := hb
  have hrest : opensWithUser true rest = true := by
    rw [← List.append_assoc] at h
    generalize pre ++ prompts = before at h
    induction before generalizing awaiting with
    | nil =>
      rw [List.nil_append,opensWithUser,if_pos ht] at h
      exact h
    | cons e before ih =>
      rw [List.cons_append,opensWithUser] at h
      split_ifs at h
      · exact ih h
      · exact ih (Bool.and_eq_true_iff.mp h).2
      · exact ih h
  clear h
  induction prompts with
  | nil =>
    rw [List.nil_append,opensWithUser,if_pos ht]
    exact hrest
  | cons e prompts ih =>
    have he : e.type = .promptAssembled := hp e (by simp)
    have hproj : projects e = false := by
      rw [projects,Entry.reads_neutral (by rw [he]; rfl)]
    rw [List.cons_append,opensWithUser,if_neg (by rw [he]; simp),if_neg (by simp [hproj])]
    exact ih (fun a ha => hp a (by simp [ha]))

/-- What is kept after a boundary projects a suffix of the whole. -/
lemma project_suffix {pre suf : List Event} {xpre xsuf : List Entry}
    (hpre : List.Forall₂ Entry.Reads pre xpre) (hsuf : List.Forall₂ Entry.Reads suf xsuf)
    (hord : ∀ a ∈ pre, ∀ b ∈ suf, a.seq < b.seq) (hn : compactionsNamed pre = true)
    (hf : compactionsFollow pre = true) (ho : opensWithUser true suf = true) :
    (project xsuf).derived <:+ (project (xpre ++ xsuf)).derived := by
  have hagree := agree_past_cut hpre hsuf hord hn hf
  have hsame : historyOf (ledgerOf xsuf) xsuf =
      xsuf.foldl (History.record (ledgerOf (xpre ++ xsuf))) History.zero :=
    (foldl_record_congr hagree History.zero).symm
  have hwhole : historyOf (ledgerOf (xpre ++ xsuf)) (xpre ++ xsuf) =
      xsuf.foldl (History.record (ledgerOf (xpre ++ xsuf)))
        (historyOf (ledgerOf (xpre ++ xsuf)) xpre) := List.foldl_append
  rw [project_toHistory,project_toHistory,hsame,hwhole]
  exact derived_suffix hsuf ho _ _

lemma all_append_left {p : Event → Bool} {a b : List Event} (h : (a ++ b).all p = true) :
    a.all p = true := by
  rw [List.all_append,Bool.and_eq_true] at h
  exact h.1

/-- What a save keeps of a log loads again, begins at a turn boundary when anything was dropped,
and projects a suffix of the whole log's history, when every turn opens with a user message and
every compaction comes after the result it names. -/
theorem trimmed_events_load {start : Log} (hs : start.Started) (calls : List Call)
    (perEvent : List (List UInt8)) (maxBytes : ℤ)
    (ht : ∀ e ∈ (start.run calls).persistable, e.type.name ≠ "") :
    let l := start.run calls
    let kept := l.persistable.drop (trimEncoded l.persistable perEvent maxBytes).1
    ∃ loaded, restoreLog kept = .ok loaded ∧ loaded.events = kept ∧
      (0 < (trimEncoded l.persistable perEvent maxBytes).1 → TurnBoundary kept) ∧
      (compactionsNamed l.persistable = true → compactionsFollow l.persistable = true →
        opensWithUser false l.persistable = true →
        ∃ whole w suffix w', l.projected = .ok (whole,w) ∧ loaded.projected = .ok (suffix,w') ∧
          suffix <:+ whole) := by
  intro l kept
  have hl : l.Coherent := hs.coherent.run calls
  have hturn : l.Turned := hs.turned.run calls
  obtain ⟨_,hbound⟩ := trimEncoded_spec l.persistable perEvent maxBytes
  obtain ⟨xs,hxs,_⟩ := hl.reads
  obtain ⟨ys,hys,hledger,hhistory⟩ := persistable_reads hxs
  have hys : List.Forall₂ Entry.Reads l.persistable ys := hys
  have hwhole : (project ys).derived = (project xs).derived := by
    have h1 : ledgerOf ys = ledgerOf xs := hledger _
    rw [project_toHistory,project_toHistory,h1]
    exact congrArg History.derived (hhistory _ _)
  have hsub : kept.Sublist l.events := (List.drop_sublist _ _).trans List.filter_sublist
  have hsplit := List.take_append_drop (trimEncoded l.persistable perEvent maxBytes).1 l.persistable
  have hpre : List.Forall₂ Entry.Reads (l.persistable.take
    (trimEncoded l.persistable perEvent maxBytes).1)
      (ys.take (trimEncoded l.persistable perEvent maxBytes).1) := List.forall₂_take _ hys
  have hsuf : List.Forall₂ Entry.Reads kept
    (ys.drop (trimEncoded l.persistable perEvent maxBytes).1) :=
    List.forall₂_drop _ hys
  obtain ⟨loaded,hload,hev,w',hproj'⟩ :=
    restoreLog_accepts (fun e he => ht e (List.mem_of_mem_drop he))
    (hl.ordered.sublist hsub) (fun e he => (hl.bounded e (hsub.subset he)).1)
    (hturn.ordered.sublist hsub) (fun e he => (hturn.bounded e (hsub.subset he)).1) hsuf
  obtain ⟨_,w,_,hproj,_⟩ := hl.derives hxs
  refine ⟨loaded,hload,hev,hbound,?_⟩
  intro hn hf ho
  refine ⟨_,w,_,w',hproj,hproj',?_⟩
  rw [← hwhole]
  by_cases hzero : (trimEncoded l.persistable perEvent maxBytes).1 = 0
  · rw [hzero]
    exact List.suffix_refl _
  · have hordered : l.persistable.Pairwise (fun a b => a.seq < b.seq) :=
      hl.ordered.sublist List.filter_sublist
    rw [← hsplit] at hn hf ho hordered
    have hys' := List.take_append_drop (trimEncoded l.persistable perEvent maxBytes).1 ys
    conv_rhs => rw [← hys']
    exact project_suffix hpre hsuf (List.pairwise_append.mp hordered).2.2 (all_append_left hn)
      (all_append_left hf) (opensWithUser_drop ho (hbound (Nat.pos_of_ne_zero hzero)))

/-- Two turns; the second opens with a user message and holds a result compacted in it. -/
def twoTurns : List Call :=
  [.append .turnStart none,
   .append .userMessage (some (.ok (.obj [("message",.obj [("role",.str "user"),
     ("content",.arr [.obj [("kind",.str "text"),("text",.str "first")]])])]))),
   .append .promptAssembled none,
   .append .turnStart none,
   .append .userMessage (some (.ok (.obj [("message",.obj [("role",.str "user"),
     ("content",.arr [.obj [("kind",.str "text"),("text",.str "second")]])])]))),
   .append .toolResult (some (.ok (.obj [("tool_call_id",.str "c1"),("text",.str "long output")]))),
   .append .toolResultCompacted (some (.ok (CompactionData.marshal ⟨"c1",6,"short",11,5⟩)))]

/-- Encodings of a hundred bytes each. -/
def encodings (n : ℕ) : List (List UInt8) := List.replicate n (List.replicate 100 0)

theorem trimmed_events_load_twoTurns :
    (trimEncoded (newLog.run twoTurns).persistable (encodings 7) 600).1 = 2 ∧
    ∃ loaded, restoreLog ((newLog.run twoTurns).persistable.drop 2) = .ok loaded ∧
      TurnBoundary ((newLog.run twoTurns).persistable.drop 2) ∧
      ∃ whole w suffix w', (newLog.run twoTurns).projected = .ok (whole,w) ∧
        loaded.projected = .ok (suffix,w') ∧ suffix <:+ whole := by
  have hcut : (trimEncoded (newLog.run twoTurns).persistable (encodings 7) 600).1 = 2 := by
    decide
  have h := trimmed_events_load (.inl rfl) twoTurns (encodings 7) 600 (by decide)
  dsimp only at h
  rw [hcut] at h
  obtain ⟨loaded,hload,_,hbound,hsuffix⟩ := h
  exact ⟨hcut,loaded,hload,hbound (by decide),
    hsuffix (by decide) (by decide) (by decide)⟩

/-- The texts of a history's tool results. -/
def resultTexts (ms : List Message) : List String :=
  ms.flatMap (fun m => m.content.flatMap (fun b => match b with
    | .toolResult _ content _ => content.filterMap (fun c => match c with
      | .text t => some t
      | _ => none)
    | _ => []))

lemma resultTexts_suffix {a b : List Message} (h : a <:+ b) : resultTexts a <:+ resultTexts b := by
  obtain ⟨pre,rfl⟩ := h
  rw [resultTexts,resultTexts,List.flatMap_append]
  exact List.suffix_append _ _

/-- What a log projects is its replay. -/
lemma Log.Coherent.projected_eq {l w : Log} {ms : List Message} (hl : l.Coherent)
    (h : l.projected = .ok (ms,w)) : ∃ p, rebuildProjection l.events = .ok p ∧ ms = p.derived := by
  obtain ⟨xs,hxs,_⟩ := hl.reads
  obtain ⟨_,w',_,hp,_⟩ := hl.derives hxs
  rw [h] at hp
  cases hp
  exact ⟨_,rebuildProjection_reads hxs,rfl⟩

/-- A recorded journal whose compaction comes a turn before the result it names. -/
def forwardJournal : List Event :=
  [⟨1,.turnStart,1,0,none⟩,
   ⟨2,.toolResultCompacted,1,0,some (CompactionData.marshal ⟨"c1",5,"short",11,5⟩)⟩,
   ⟨3,.turnStart,2,0,none⟩,
   ⟨4,.userMessage,2,0,some (.obj [("message",.obj [("role",.str "user"),
     ("content",.arr [.obj [("kind",.str "text"),("text",.str "second")]])])])⟩,
   ⟨5,.toolResult,2,0,some (.obj [("tool_call_id",.str "c1"),("text",.str "long output")])⟩]

/-- An event without a type, in the turn that is kept. -/
def untypedCalls : List Call :=
  [.append .turnStart none,.append .turnStart none,.append (.other "") none]

/-- A restore accepts a compaction that names a later result, and a trim that drops it gives the
result its own text back; an event without a type is saved and does not load. -/
theorem trim_changes_forward_compaction :
    (∃ l loaded, restoreLog forwardJournal = .ok l ∧ l.persistable = forwardJournal ∧
      compactionsNamed forwardJournal = true ∧ opensWithUser false forwardJournal = true ∧
      trimEncoded forwardJournal (encodings 5) 400 = (2,1,false) ∧
      restoreLog (forwardJournal.drop 2) = .ok loaded ∧
      ¬ ∃ whole w suffix w', l.projected = .ok (whole,w) ∧ loaded.projected = .ok (suffix,w') ∧
        suffix <:+ whole) ∧
    (trimEncoded (newLog.run untypedCalls).persistable (encodings 3) 250).1 = 1 ∧
      (restoreLog ((newLog.run untypedCalls).persistable.drop 1)).toOption.isNone = true := by
  refine ⟨?_,by decide,by decide⟩
  have hok : (restoreLog forwardJournal).toOption.isSome = true := by decide
  have hok' : (restoreLog (forwardJournal.drop 2)).toOption.isSome = true := by decide
  cases hl : restoreLog forwardJournal with
  | error e =>
    rw [hl] at hok
    cases hok
  | ok l =>
    cases hl' : restoreLog (forwardJournal.drop 2) with
    | error e =>
      rw [hl'] at hok'
      cases hok'
    | ok loaded =>
      obtain ⟨hcoh,hev⟩ := restoreLog_coherent hl
      obtain ⟨hcoh',hev'⟩ := restoreLog_coherent hl'
      refine ⟨l,loaded,rfl,by rw [Log.persistable,hev]; rfl,by decide,by decide,
        by decide,rfl,?_⟩
      rintro ⟨whole,w,suffix,w',hp,hp',hsuf⟩
      obtain ⟨p,hr,rfl⟩ := hcoh.projected_eq hp
      obtain ⟨p',hr',rfl⟩ := hcoh'.projected_eq hp'
      have ht : (rebuildProjection forwardJournal).toOption.map (fun p => resultTexts p.derived) =
          some ["short"] := by decide
      have ht' : (rebuildProjection (forwardJournal.drop 2)).toOption.map
          (fun p => resultTexts p.derived) = some ["long output"] := by decide
      rw [← hev,hr] at ht
      rw [← hev',hr'] at ht'
      have hshort : resultTexts p.derived = ["short"] := Option.some.inj ht
      have hlong : resultTexts p'.derived = ["long output"] := Option.some.inj ht'
      have htext := resultTexts_suffix hsuf
      rw [hshort,hlong] at htext
      revert htext
      decide

end Manvi.Session
