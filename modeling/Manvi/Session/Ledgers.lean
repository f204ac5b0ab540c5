import Manvi.Session.Compacted

/-! What a log answers about its compactions, with its projection warm or cold. -/
namespace Manvi.Session
open Manvi.Encoding Manvi.LLM

namespace Log

/-- The log once its projection was invalidated. -/
def cold (l : Log) : Log := { l with proj := { l.proj with valid := false } }

/-- What a log answers is exact: a result replays as its compacted text just when its call is among
the compacted calls or it is among the compacted results. -/
def AnswersExactly (l : Log) (calls : List CallID) : Prop :=
  ∃ keys w, l.compactedResults = .ok (keys,w) ∧
  ∀ k ∈ numbered ResultRef.id [] l.results, (l.compactedText k.2).isSome = true ↔ k.1.id ∈ calls ∨
  k.1 ∈ keys

/-- The compacted calls are the same, warm or cold, and with the compacted results they are
exact. -/
def LedgersAgree (l : Log) : Prop :=
  ∃ w warmCalls coldCalls, l.warm = .ok w ∧ w.compactedCalls = .ok warmCalls ∧
  l.cold.compactedCalls = .ok coldCalls ∧ (∀ id, id ∈ warmCalls ↔ id ∈ coldCalls) ∧
  w.AnswersExactly warmCalls ∧ l.cold.AnswersExactly coldCalls

end Log

/-- The compaction records among events. -/
def compactions (events : List Event) : List CompactionData := events.filterMap (fun e =>
  if e.type = .toolResultCompacted then (CompactionData.unmarshal e.data).toOption else none)

/-- The call of every record with a negative sequence is also named by a record without one. -/
def NegativesRepeated (events : List Event) : Prop := ∀ c ∈ compactions events, c.resultSeq < 0 →
  ∃ d ∈ compactions events, d.resultSeq = 0 ∧ d.toolCallID = c.toolCallID

/-- The record of an entry. -/
def Entry.compaction? : Entry → Option CompactionData
  | .compaction c => some c
  | _ => none

section reads
variable {es : List Event} {xs : List Entry}

/-- Reading one event for its record, as the scan of a cold log does. -/
lemma Entry.Reads.scanned {e : Event} {x : Entry} (h : Reads e x) :
    (e.type = .toolResultCompacted ∧ ∃ c, CompactionData.unmarshal e.data = .ok c ∧
      x = .compaction c) ∨
    (e.type ≠ .toolResultCompacted ∧ x.compaction? = none) := by
  cases x with
  | compaction c =>
    obtain ⟨ht,hc⟩ := h.compaction
    exact .inl ⟨ht,c,hc,rfl⟩
  | neutral => exact .inr ⟨h.not_compaction (by simp),rfl⟩
  | message m => exact .inr ⟨h.not_compaction (by simp),rfl⟩
  | result seq d => exact .inr ⟨h.not_compaction (by simp),rfl⟩

lemma compactions_eq (h : List.Forall₂ Entry.Reads es xs) :
    compactions es = xs.filterMap Entry.compaction? := by
  induction h with
  | nil => rfl
  | @cons e x es xs hx _ ih =>
    rw [compactions] at ih ⊢
    obtain ⟨ht,c,hc,rfl⟩ | ⟨ht,hno⟩ := hx.scanned
    · have hopt : (CompactionData.unmarshal e.data).toOption = some c := by
        rw [hc]
        rfl
      simp only [List.filterMap_cons,ht,hopt,if_true,Entry.compaction?,ih]
    · simp only [List.filterMap_cons,ht,if_false,hno,ih]

/-- The calls that the scan of a cold log finds. -/
def scannedCalls (cs : List CompactionData) : List CallID :=
  cs.filterMap (fun c => if c.resultSeq = 0 then some c.toolCallID else none)

@[simp] lemma mem_scannedCalls {cs : List CompactionData} {id : CallID} :
    id ∈ scannedCalls cs ↔ ∃ c ∈ cs, c.resultSeq = 0 ∧ c.toolCallID = id := by
  simp [scannedCalls]

/-- One event of the scan. -/
def scanEvent (out : List CallID) (e : Event) : Except String (List CallID) :=
  if e.type = .toolResultCompacted then do
    let c ← atEvent e.seq (CompactionData.unmarshal e.data)
    if c.resultSeq = 0 then return out ++ [c.toolCallID] else return out
  else .ok out

lemma scanEvent_reads {e : Event} {x : Entry} (h : Entry.Reads e x) (out : List CallID) :
    scanEvent out e = .ok (out ++ scannedCalls x.compaction?.toList) := by
  unfold scanEvent
  obtain ⟨ht,c,hc,rfl⟩ | ⟨ht,hno⟩ := h.scanned
  · rw [if_pos ht,hc,atEvent_pure]
    show (if c.resultSeq = 0 then (.ok (out ++ [c.toolCallID]) : Except String (List CallID))
      else .ok out) = _
    split_ifs with hzero
    · simp [Entry.compaction?,scannedCalls,hzero]
    · simp [Entry.compaction?,scannedCalls,hzero]
  · rw [if_neg ht,hno]
    simp [scannedCalls]

lemma scan_reads (h : List.Forall₂ Entry.Reads es xs) (out : List CallID) :
    es.foldlM scanEvent out = .ok (out ++ scannedCalls (xs.filterMap Entry.compaction?)) := by
  induction h generalizing out with
  | nil => simp [scannedCalls,pure,Except.pure]
  | @cons e x es xs hx _ ih =>
    rw [List.foldlM_cons,scanEvent_reads hx]
    refine (ih _).trans ?_
    rw [List.append_assoc]
    cases hc : x.compaction? with
    | none => simp [hc,scannedCalls]
    | some c => by_cases hzero : c.resultSeq = 0 <;> simp [hc,scannedCalls,hzero]

/-- The calls in the ledger of a transcript are those of its records without a positive sequence. -/
lemma ledgerOf_compacted (xs : List Entry) (id : CallID) :
    ((ledgerOf xs).compacted.get id).isSome = true ↔
    ∃ c ∈ xs.filterMap Entry.compaction?, c.resultSeq ≤ 0 ∧ c.toolCallID = id := by
  induction xs using List.reverseRecOn with
  | nil => simp [ledgerOf,Ledger.zero]
  | append_singleton xs x ih =>
    rw [ledgerOf_append_singleton,List.filterMap_append]
    cases x with
    | compaction c =>
      by_cases hpos : c.resultSeq > 0
      · have hcompacted : ((ledgerOf xs).record (.compaction c)).compacted =
          (ledgerOf xs).compacted := by
          simp [Ledger.record,hpos]
        rw [hcompacted,ih]
        simp [Entry.compaction?,not_le.mpr hpos]
      · have hcompacted : ((ledgerOf xs).record (.compaction c)).compacted =
          (ledgerOf xs).compacted.set c.toolCallID c.text := by
          simp [Ledger.record,hpos]
        have hle : c.resultSeq ≤ 0 := not_lt.mp hpos
        rw [hcompacted,Table.get_set]
        by_cases hid : id = c.toolCallID
        · subst hid
          simp [Entry.compaction?,hle]
        · rw [if_neg hid,ih]
          simp [Entry.compaction?,Ne.symm hid]
    | neutral => simpa [Entry.compaction?,Ledger.record] using ih
    | message m => simpa [Entry.compaction?,Ledger.record] using ih
    | result seq d => simpa [Entry.compaction?,Ledger.record] using ih

end reads

lemma Ledger.shortened_isSome (l : Ledger) (seq : ℤ) (id : CallID) :
    (l.shortened seq id).isSome = true ↔
    (l.compacted.get id).isSome = true ∨ (l.bySeq.get seq).any (fun c => c.id = id) = true := by
  unfold shortened
  cases hseq : l.bySeq.get seq with
  | none => simp
  | some c =>
    by_cases hid : c.id = id
    · simp [hid]
    · simp [hid]

section agree
variable {l : Log} {xs : List Entry}

/-- A result has its key among some exactly when it is one of them. -/
lemma mem_keys_iff {results : List ResultRef} {f : ResultKey × ResultRef → Bool}
    {k : ResultKey × ResultRef}
    (hk : k ∈ numbered ResultRef.id [] results) :
    k.1 ∈ ((numbered ResultRef.id [] results).filter f).map Prod.fst ↔ f k = true := by
  constructor
  · intro hmem
    obtain ⟨k',hk',he⟩ := List.mem_map.mp hmem
    obtain ⟨hin,hf⟩ := List.mem_filter.mp hk'
    have hnodup : ((numbered ResultRef.id [] results).map Prod.fst).Nodup :=
      numbered_nodup [] results
    have hsame := List.inj_on_of_nodup_map hnodup hin hk he
    rw [← hsame]
    exact hf
  · exact fun hf => List.mem_map_of_mem (List.mem_filter.mpr ⟨hk,hf⟩)

lemma results_congr {l l' : Log} (h : l'.events = l.events) : l'.results = l.results := by
  unfold Log.results
  rw [h]

/-- What a coherent log answers is exact for the calls in its ledger. -/
lemma Log.Coherent.answersExactly (hl : l.Coherent) (hxs : List.Forall₂ Entry.Reads l.events xs)
    {calls : List CallID}
    (hcalls : ∀ id, id ∈ calls ↔ ((ledgerOf xs).compacted.get id).isSome = true) :
    l.AnswersExactly calls := by
  obtain ⟨w,hw,hcw,he,hv⟩ := hl.warm
  obtain ⟨ys,hys,hproj⟩ := hcw.reads
  obtain ⟨hledger,_⟩ := hproj hv
  rw [he] at hys
  rw [← reads_unique hxs hys] at hledger
  have hresults : l.results = w.proj.results := by
    rw [← results_congr he,hcw.results_warm hv]
  refine ⟨_,w,by simp only [Log.compactedResults,hw]; rfl,?_⟩
  intro k hk
  rw [Log.compactedText_eq hxs,Ledger.shortened_isSome,numbered_id hk,hcalls]
  rw [hresults] at hk
  rw [mem_keys_iff hk,hledger]

/-- The warm and the cold answer of a coherent log. -/
lemma Log.Coherent.answers (hl : l.Coherent) (hxs : List.Forall₂ Entry.Reads l.events xs) :
    ∃ w warmCalls, l.warm = .ok w ∧
    w.events = l.events ∧ w.Coherent ∧ w.compactedCalls = .ok warmCalls ∧
    (∀ id, id ∈ warmCalls ↔ ((ledgerOf xs).compacted.get id).isSome = true) ∧
    l.cold.compactedCalls = .ok (scannedCalls (compactions l.events)) := by
  obtain ⟨w,hw,hcw,he,hv⟩ := hl.warm
  obtain ⟨ys,hys,hproj⟩ := hcw.reads
  obtain ⟨hledger,_⟩ := hproj hv
  rw [he] at hys
  rw [← reads_unique hxs hys] at hledger
  refine ⟨w,w.proj.compacted.keys,hw,he,hcw,?_,?_,?_⟩
  · unfold Log.compactedCalls
    rw [if_pos hv]
  · intro id
    rw [← hledger,Table.isSome_get]
  · have hscan := scan_reads hxs []
    rw [← compactions_eq hxs,List.nil_append] at hscan
    exact hscan

lemma Log.Coherent.ofCold (hl : l.Coherent) : l.cold.Coherent := by
  obtain ⟨xs,hxs,_⟩ := hl.reads
  exact ⟨⟨xs,hxs,fun h => by cases h⟩,hl.ordered,hl.bounded,hl.nonneg⟩

/-- The calls of the ledger and those of the scan differ by the records with a negative sequence. -/
lemma negativesRepeated_iff (hxs : List.Forall₂ Entry.Reads l.events xs) :
    NegativesRepeated l.events ↔
    ∀ id, ((ledgerOf xs).compacted.get id).isSome = true ↔
    id ∈ scannedCalls (compactions l.events) := by
  simp only [ledgerOf_compacted,← compactions_eq hxs,mem_scannedCalls]
  constructor
  · intro h id
    constructor
    · rintro ⟨c,hc,hle,rfl⟩
      obtain hneg | hzero := hle.lt_or_eq
      · exact h c hc hneg
      · exact ⟨c,hc,hzero,rfl⟩
    · rintro ⟨c,hc,hzero,rfl⟩
      exact ⟨c,hc,hzero.le,rfl⟩
  · intro h c hc hneg
    exact (h c.toolCallID).mp ⟨c,hc,hneg.le,rfl⟩

/-- After any calls on a restored log, its ledgers answer the same warm or cold and cover exactly
the compacted results if and only if every record with a negative sequence is for a call that a
record without one names too. -/
theorem ledgers_agree_iff {events : List Event} {start : Log} (h : restoreLog events = .ok start)
    (calls : List Call) :
    (start.run calls).LedgersAgree ↔ NegativesRepeated (start.run calls).events := by
  have hl := (restoreLog_coherent h).1.run calls
  generalize start.run calls = l at hl
  obtain ⟨xs,hxs,_⟩ := hl.reads
  obtain ⟨w,warmCalls,hw,he,hcw,hwarm,hmem,hcold⟩ := hl.answers hxs
  rw [negativesRepeated_iff hxs]
  constructor
  · rintro ⟨w',warmCalls',coldCalls,hw',hwarm',hcold',hsame,-⟩
    rw [hw] at hw'
    cases hw'
    rw [hwarm] at hwarm'
    cases hwarm'
    rw [hcold] at hcold'
    cases hcold'
    exact fun id => (hmem id).symm.trans (hsame id)
  · intro hagree
    refine ⟨w,warmCalls,_,hw,hwarm,hcold,fun id => (hmem id).trans (hagree id),?_,?_⟩
    · exact hcw.answersExactly (by rw [he]; exact hxs) hmem
    · exact hl.ofCold.answersExactly hxs (fun id => (hagree id).symm)

end agree

/-- A journal with one result of a call and one record that compacts it, under a sequence. -/
def compactedJournal (seq : ℤ) : List Event :=
  [⟨1,.toolResult,0,0,some (.obj [("tool_call_id",.str "c1"),("text",.str "long output")])⟩,
   ⟨2,.toolResultCompacted,0,0,some (CompactionData.marshal ⟨"c1",seq,"short",11,5⟩)⟩]

theorem ledgers_agree_by_call :
    ∃ start, restoreLog (compactedJournal 0) = .ok start ∧ start.LedgersAgree := by
  have hok : (restoreLog (compactedJournal 0)).toOption.isSome = true := by decide
  obtain ⟨start,hstart⟩ := Option.isSome_iff_exists.mp hok
  have hrestored := eq_ok_of_toOption hstart
  refine ⟨start,hrestored,(ledgers_agree_iff hrestored []).mpr ?_⟩
  have hnone : (compactions (compactedJournal 0)).all (fun c => 0 ≤ c.resultSeq) = true := by decide
  intro c hc hneg
  have hevents : (start.run []).events = compactedJournal 0 := (restoreLog_coherent hrestored).2
  rw [hevents] at hc
  have hle := List.all_eq_true.mp hnone c hc
  exact absurd hneg (not_lt.mpr (by simpa using hle))

/-- A restored record with a negative sequence counts for its call while the projection is warm, and
not when it is cold. -/
theorem negative_sequence_forgotten : ∃ start, restoreLog (compactedJournal (-1)) = .ok start ∧
    ¬ start.LedgersAgree := by
  have hboth : (restoreLog (compactedJournal (-1))).toOption.map (fun l =>
      (l.proj.valid,l.compactedCalls.toOption,l.cold.compactedCalls.toOption)) = some (true,
        some ["c1"],some []) := by decide
  obtain ⟨start,hstart,hans⟩ := Option.map_eq_some_iff.mp hboth
  obtain ⟨hvalid,hans⟩ := Prod.mk.inj hans
  obtain ⟨hwarm,hcold⟩ := Prod.mk.inj hans
  refine ⟨start,eq_ok_of_toOption hstart,?_⟩
  rintro ⟨w,warmCalls,coldCalls,hw,hwarm',hcold',hsame,-⟩
  rw [Log.warm,if_pos hvalid] at hw
  cases hw
  rw [eq_ok_of_toOption hwarm] at hwarm'
  cases hwarm'
  rw [eq_ok_of_toOption hcold] at hcold'
  cases hcold'
  have hmem := (hsame "c1").mp (by simp)
  cases hmem

end Manvi.Session
