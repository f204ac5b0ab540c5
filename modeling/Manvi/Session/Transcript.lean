import Manvi.Session.Log

/-! A log read as a list of entries: what each event contributes once its payload is decoded.
A replay that succeeds is a pure fold over the entries. -/
namespace Manvi.Session
open Manvi.Encoding Manvi.LLM

/-- What one event contributes to a projection. -/
inductive Entry where
  | neutral
  | message (m : Message)
  | result (seq : ℤ) (d : ToolResultData)
  | compaction (c : CompactionData)

namespace Entry

/-- The entry an event stands for. -/
def read (e : Event) : Except String Entry :=
  match e.type with
  | .userMessage => do
    let d ← atEvent e.seq (MessageData.unmarshal e.data)
    return .message d.message
  | .assistantMessage => do
    let d ← atEvent e.seq (MessageData.unmarshal e.data)
    if d.message.content = [] then return .neutral else return .message d.message
  | .toolResult => do
    let d ← atEvent e.seq (ToolResultData.unmarshal e.data)
    let _ ← atEvent e.seq (validateToolContent d)
    return .result e.seq d
  | .toolResultCompacted => do
    let c ← atEvent e.seq (CompactionData.unmarshal e.data)
    return .compaction c
  | _ => .ok .neutral

/-- The event reads as the entry. -/
def Reads (e : Event) (x : Entry) : Prop := read e = .ok x

end Entry

def Ledger.zero : Ledger := ⟨Table.empty,Table.empty⟩

def History.zero : History := ⟨[],[],[]⟩

/-- A compaction enters the ledger it names. -/
def Ledger.record (l : Ledger) : Entry → Ledger
  | .compaction c =>
    if c.resultSeq > 0 then { l with bySeq := l.bySeq.set c.resultSeq ⟨c.toolCallID,c.text⟩ }
    else { l with compacted := l.compacted.set c.toolCallID c.text }
  | _ => l

def History.record (l : Ledger) (h : History) : Entry → History
  | .message m => h.addMessage m
  | .result seq d => h.addResult l seq d
  | _ => h

/-- The compactions of a transcript. -/
def ledgerOf (xs : List Entry) : Ledger := xs.foldl Ledger.record Ledger.zero

/-- The history of a transcript under a ledger. -/
def historyOf (l : Ledger) (xs : List Entry) : History := xs.foldl (History.record l) History.zero

/-- The projection of a transcript. -/
def project (xs : List Entry) : Projection :=
  let l := ledgerOf xs
  let h := historyOf l xs
  ⟨l,h,true,countIgnored l h.results⟩

@[simp] theorem ledgerOf_append_singleton (xs : List Entry) (x : Entry) :
    ledgerOf (xs ++ [x]) = (ledgerOf xs).record x := by
  simp [ledgerOf]

@[simp] theorem historyOf_append_singleton (l : Ledger) (xs : List Entry) (x : Entry) :
    historyOf l (xs ++ [x]) = (historyOf l xs).record l x := by
  simp [historyOf]

@[simp] theorem project_toLedger (xs : List Entry) : (project xs).toLedger = ledgerOf xs := rfl

@[simp] theorem project_toHistory (xs : List Entry) :
    (project xs).toHistory = historyOf (ledgerOf xs) xs := rfl

@[simp] theorem project_valid (xs : List Entry) : (project xs).valid = true := rfl

/-! The two passes of a replay over events that can be read. -/

lemma during_ok {α : Type} {context : String} {r : Except String α} {a : α}
    (h : during context r = .ok a) : r = .ok a := by
  cases r with
  | ok b => exact h
  | error e => cases h

lemma atEvent_ok {α : Type} {seq : ℤ} {r : Except String α} {a : α}
    (h : atEvent seq r = .ok a) : r = .ok a := during_ok h

@[simp] theorem atEvent_pure {α : Type} (seq : ℤ) (a : α) :
    atEvent seq (.ok a : Except String α) = .ok a := rfl

/-- What it takes to read an entry, by the type of the event. -/
theorem Entry.read_cases {e : Event} {x : Entry} (h : Reads e x) :
    (∃ d, e.type = .userMessage ∧ MessageData.unmarshal e.data = .ok d ∧ x = .message d.message) ∨
    (∃ d, e.type = .assistantMessage ∧ MessageData.unmarshal e.data = .ok d ∧
      x = if d.message.content = [] then .neutral else .message d.message) ∨
    (∃ d, e.type = .toolResult ∧ ToolResultData.unmarshal e.data = .ok d ∧
      validateToolContent d = .ok () ∧ x = .result e.seq d) ∨
    (∃ c, e.type = .toolResultCompacted ∧ CompactionData.unmarshal e.data = .ok c ∧
      x = .compaction c) ∨
    (shapesHistory e.type = false ∧ x = .neutral) := by
  unfold Reads read at h
  split at h
  case h_1 ht =>
    obtain ⟨d,hd,h⟩ := bind_ok h
    cases h
    exact .inl ⟨d,ht,atEvent_ok hd,rfl⟩
  case h_2 ht =>
    obtain ⟨d,hd,h⟩ := bind_ok h
    refine .inr (.inl ⟨d,ht,atEvent_ok hd,?_⟩)
    split at h <;> cases h
    · rw [if_pos ‹_›]
    · rw [if_neg ‹_›]
  case h_3 ht =>
    obtain ⟨d,hd,h⟩ := bind_ok h
    obtain ⟨u,hu,h⟩ := bind_ok h
    cases h
    exact .inr (.inr (.inl ⟨d,ht,atEvent_ok hd,atEvent_ok hu,rfl⟩))
  case h_4 ht =>
    obtain ⟨c,hc,h⟩ := bind_ok h
    cases h
    exact .inr (.inr (.inr (.inl ⟨c,ht,atEvent_ok hc,rfl⟩)))
  case h_5 h1 h2 h3 h4 =>
    cases h
    refine .inr (.inr (.inr (.inr ⟨?_,rfl⟩)))
    unfold shapesHistory
    split <;> first | contradiction | rfl

namespace Entry
variable {e : Event}

lemma reads_userMessage {d : MessageData} (ht : e.type = .userMessage)
    (hd : MessageData.unmarshal e.data = .ok d) : Reads e (.message d.message) := by
  simp only [Reads,read,ht,hd]
  rfl

lemma reads_assistantMessage {d : MessageData} (ht : e.type = .assistantMessage)
    (hd : MessageData.unmarshal e.data = .ok d) :
    Reads e (if d.message.content = [] then .neutral else .message d.message) := by
  simp only [Reads,read,ht,hd]
  change (if d.message.content = [] then _ else _) = _
  split_ifs <;> rfl

lemma reads_toolResult {d : ToolResultData} (ht : e.type = .toolResult)
    (hd : ToolResultData.unmarshal e.data = .ok d) (hv : validateToolContent d = .ok ()) :
    Reads e (.result e.seq d) := by
  simp only [Reads,read,ht,hd]
  change (do let _ ← atEvent e.seq (validateToolContent d); _) = _
  rw [hv]
  rfl

lemma reads_compaction {c : CompactionData} (ht : e.type = .toolResultCompacted)
    (hc : CompactionData.unmarshal e.data = .ok c) : Reads e (.compaction c) := by
  simp only [Reads,read,ht,hc]
  rfl

lemma reads_neutral (ht : shapesHistory e.type = false) : Reads e .neutral := by
  unfold Reads read
  split <;> first | rfl | simp_all [shapesHistory]

end Entry

lemma recordCompaction_reads (l : Ledger) {e : Event} {x : Entry} (h : Entry.Reads e x) :
    recordCompaction l e = .ok (l.record x) := by
  rcases Entry.read_cases h with ⟨d,ht,hd,rfl⟩ | ⟨d,ht,hd,rfl⟩ | ⟨d,ht,hd,hv,rfl⟩ | ⟨c,ht,hc,rfl⟩
    | ⟨ht,rfl⟩
  · simp [recordCompaction,ht,Ledger.record]
  · simp only [recordCompaction,ht]
    split_ifs <;> simp_all [Ledger.record]
  · simp [recordCompaction,ht,Ledger.record]
  · simp only [recordCompaction,ht,hc,Ledger.record]
    change (if c.resultSeq > 0 then _ else _) = _
    split_ifs <;> rfl
  · have hn : e.type ≠ .toolResultCompacted := by
      intro he
      simp [he,shapesHistory] at ht
    simp [recordCompaction,hn,Ledger.record]

lemma replayEvent_reads (l : Ledger) (h : History) {e : Event} {x : Entry}
    (hx : Entry.Reads e x) : replayEvent l h e = .ok (h.record l x) := by
  rcases Entry.read_cases hx with ⟨d,ht,hd,rfl⟩ | ⟨d,ht,hd,rfl⟩ | ⟨d,ht,hd,hv,rfl⟩ | ⟨c,ht,hc,rfl⟩
    | ⟨ht,rfl⟩
  · simp only [replayEvent,ht,hd]
    rfl
  · simp only [replayEvent,ht,hd]
    change (if d.message.content = [] then _ else _) = _
    split_ifs <;> rfl
  · simp only [replayEvent,ht,hd]
    change (do let _ ← atEvent e.seq (validateToolContent d); _) = _
    rw [hv]
    rfl
  · simp only [replayEvent,ht]
    rfl
  · unfold replayEvent
    split <;> first | rfl | simp_all [shapesHistory]

/-- An event both passes accept can be read. -/
lemma reads_of_passes {l l' : Ledger} {h h' : History} {l0 : Ledger} {e : Event}
    (hl : recordCompaction l e = .ok l') (hh : replayEvent l0 h e = .ok h') :
    ∃ x, Entry.Reads e x := by
  cases hs : shapesHistory e.type with
  | false => exact ⟨_,Entry.reads_neutral hs⟩
  | true =>
    unfold replayEvent at hh
    split at hh
    case h_1 ht =>
      obtain ⟨d,hd,_⟩ := bind_ok hh
      exact ⟨_,Entry.reads_userMessage ht (atEvent_ok hd)⟩
    case h_2 ht =>
      obtain ⟨d,hd,_⟩ := bind_ok hh
      exact ⟨_,Entry.reads_assistantMessage ht (atEvent_ok hd)⟩
    case h_3 ht =>
      obtain ⟨d,hd,hh⟩ := bind_ok hh
      obtain ⟨u,hu,_⟩ := bind_ok hh
      exact ⟨_,Entry.reads_toolResult ht (atEvent_ok hd) (atEvent_ok hu)⟩
    case h_4 h1 h2 h3 =>
      have ht : e.type = .toolResultCompacted := by
        unfold shapesHistory at hs
        split at hs <;> first | contradiction | assumption
      rw [recordCompaction,if_pos ht] at hl
      obtain ⟨c,hc,_⟩ := bind_ok hl
      exact ⟨_,Entry.reads_compaction ht (atEvent_ok hc)⟩

lemma collectLedger_reads {es : List Event} {xs : List Entry} (h : List.Forall₂ Entry.Reads es xs)
    (l : Ledger) : es.foldlM recordCompaction l = .ok (xs.foldl Ledger.record l) := by
  induction h generalizing l with
  | nil => rfl
  | cons hx _ ih =>
    rw [List.foldlM_cons,recordCompaction_reads l hx]
    exact ih _

lemma replay_reads (l : Ledger) {es : List Event} {xs : List Entry}
    (h : List.Forall₂ Entry.Reads es xs) (start : History) :
    es.foldlM (replayEvent l) start = .ok (xs.foldl (History.record l) start) := by
  induction h generalizing start with
  | nil => rfl
  | cons hx _ ih =>
    rw [List.foldlM_cons,replayEvent_reads l start hx]
    exact ih _

lemma reads_of_folds {l l' l0 : Ledger} {h h' : History} {es : List Event}
    (hl : es.foldlM recordCompaction l = .ok l') (hh : es.foldlM (replayEvent l0) h = .ok h') :
    ∃ xs, List.Forall₂ Entry.Reads es xs := by
  induction es generalizing l h with
  | nil => exact ⟨[],.nil⟩
  | cons e es ih =>
    rw [List.foldlM_cons] at hl hh
    obtain ⟨l1,hl1,hl⟩ := bind_ok hl
    obtain ⟨h1,hh1,hh⟩ := bind_ok hh
    obtain ⟨x,hx⟩ := reads_of_passes hl1 hh1
    obtain ⟨xs,hxs⟩ := ih hl hh
    exact ⟨x :: xs,.cons hx hxs⟩

/-- Events read as one transcript only. -/
lemma reads_unique {es : List Event} {xs ys : List Entry} (hx : List.Forall₂ Entry.Reads es xs)
    (hy : List.Forall₂ Entry.Reads es ys) : xs = ys := by
  induction hx generalizing ys with
  | nil => cases hy; rfl
  | cons h _ ih =>
    cases hy with
    | cons h' hys => rw [Except.ok.inj (h.symm.trans h'),ih hys]

/-- A replay of events that can be read is the projection of what they read as. -/
theorem rebuildProjection_reads {es : List Event} {xs : List Entry}
    (h : List.Forall₂ Entry.Reads es xs) : rebuildProjection es = .ok (project xs) := by
  unfold rebuildProjection collectLedger replay
  rw [collectLedger_reads h]
  change (do let h ← es.foldlM (replayEvent _) _; pure _) = _
  rw [replay_reads _ h]
  rfl

/-- A replay succeeds exactly when every event can be read. -/
theorem rebuildProjection_eq_ok_iff (es : List Event) (p : Projection) :
    rebuildProjection es = .ok p ↔ ∃ xs, List.Forall₂ Entry.Reads es xs ∧ p = project xs := by
  constructor
  · intro h
    obtain ⟨l,hl,h'⟩ := bind_ok h
    obtain ⟨hist,hh,_⟩ := bind_ok h'
    obtain ⟨xs,hxs⟩ := reads_of_folds hl hh
    rw [rebuildProjection_reads hxs] at h
    cases h
    exact ⟨xs,hxs,rfl⟩
  · rintro ⟨xs,hxs,rfl⟩
    exact rebuildProjection_reads hxs

/-! Everything a transcript projects can be copied. -/

def Entry.Portable : Entry → Prop
  | .message m => PortableMessage m
  | .result _ d => ∀ b ∈ d.content, LLM.Portable b
  | _ => True

lemma Entry.Reads.portable {e : Event} {x : Entry} (h : Reads e x) : x.Portable := by
  rcases read_cases h with ⟨d,_,hd,rfl⟩ | ⟨d,_,hd,rfl⟩ | ⟨d,_,hd,_,rfl⟩ | ⟨c,_,_,rfl⟩ | ⟨_,rfl⟩
  · exact MessageData.unmarshal_portable hd
  · split_ifs
    · trivial
    · exact MessageData.unmarshal_portable hd
  · exact ToolResultData.unmarshal_portable hd
  · trivial
  · trivial

lemma forall₂_reads_portable {es : List Event} {xs : List Entry}
    (h : List.Forall₂ Entry.Reads es xs) : ∀ x ∈ xs, x.Portable := by
  induction h with
  | nil => simp
  | cons hx _ ih =>
    intro x hm
    rcases List.mem_cons.mp hm with rfl | hm
    · exact hx.portable
    · exact ih x hm

namespace History

/-- The derived messages are those of the history with its open group flushed. -/
lemma derived_eq_flushPending (h : History) : h.derived = h.flushPending.messages := by
  unfold derived flushPending
  split_ifs <;> rfl

structure Portable (h : History) : Prop where
  messages : ∀ m ∈ h.messages, PortableMessage m
  pending : ∀ b ∈ h.pending, LLM.Portable b

namespace Portable
variable {h : History}

lemma flushPending (hp : h.Portable) : h.flushPending.Portable := by
  unfold History.flushPending
  split_ifs
  · exact hp
  · refine ⟨?_,by simp⟩
    intro m hm
    rcases List.mem_append.mp hm with hm | hm
    · exact hp.messages m hm
    · rw [List.mem_singleton.mp hm]
      exact ⟨hp.pending,by simp⟩

lemma addMessage (hp : h.Portable) {m : Message} (hm : PortableMessage m) :
    (h.addMessage m).Portable := by
  refine ⟨?_,hp.flushPending.pending⟩
  intro a ha
  rcases List.mem_append.mp ha with ha | ha
  · exact hp.flushPending.messages a ha
  · rw [List.mem_singleton.mp ha]
    exact hm

lemma addResult (hp : h.Portable) (l : Ledger) (seq : ℤ) {d : ToolResultData}
    (hd : ∀ b ∈ d.content, LLM.Portable b) : (h.addResult l seq d).Portable := by
  refine ⟨hp.messages,?_⟩
  have hc : ∀ b ∈ l.resultContent seq d, LLM.Portable b := by
    unfold Ledger.resultContent
    cases l.shortened seq d.toolCallID with
    | some short => simpa using LLM.Portable.text short
    | none =>
      change ∀ b ∈ (if d.content = [] then _ else _), LLM.Portable b
      split_ifs
      · simpa using LLM.Portable.text d.text
      · exact hd
  intro b hb
  rcases List.mem_append.mp hb with hb | hb
  · exact hp.pending b hb
  · rw [List.mem_singleton.mp hb]
    exact .toolResult _ _ hc

lemma record (hp : h.Portable) (l : Ledger) {x : Entry} (hx : x.Portable) :
    (h.record l x).Portable := by
  cases x with
  | neutral => exact hp
  | message m => exact hp.addMessage hx
  | result seq d => exact hp.addResult l seq hx
  | compaction c => exact hp

end Portable
end History

/-- The owned copy of the messages that events project equals them. -/
theorem cloneMessages_project {es : List Event} {xs : List Entry}
    (h : List.Forall₂ Entry.Reads es xs) :
    cloneMessages (project xs).derived = .ok (project xs).derived := by
  have hx := forall₂_reads_portable h
  have hp : ∀ start : History, start.Portable →
      (xs.foldl (History.record (ledgerOf xs)) start).Portable := by
    generalize ledgerOf xs = l
    clear h
    induction xs with
    | nil => exact fun _ hs => hs
    | cons x xs ih =>
      intro start hs
      exact ih (fun y hy => hx y (by simp [hy])) _ (hs.record l (hx x (by simp)))
  have hz : History.zero.Portable := ⟨by simp [History.zero],by simp [History.zero]⟩
  rw [History.derived_eq_flushPending]
  exact cloneMessages_eq (hp _ hz).flushPending.messages

end Manvi.Session
