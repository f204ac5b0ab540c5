import Manvi.Session.Transcript

/-! Whole runs of a log: the warm projection is the full replay in every state reached, and a
history can always be derived. -/
namespace Manvi.Session
open Manvi.Encoding Manvi.LLM

/-- A call made on a log. -/
inductive Call where
  | append (t : EventType) (payload : Payload)
  | deriveMessages
  | compactedCalls
  | compactedResults
  | holdsResults (msgs : List Message)
  | ignoredCompactions
  | resultSeqs (keys : List ResultKey)
  | setScrubber (scrub : String → String)
  | setSensitiveScrubber (scrub : String → String)

namespace Log

/-- The log once its projection has been read; a replay that fails stores nothing. -/
def afterRead (l : Log) : Log :=
  match l.warm with
  | .ok w => w
  | .error _ => l

/-- The log after a call. A refused append leaves it as it was. -/
def after (l : Log) : Call → Log
  | .append t payload => match l.append t payload with
    | .ok r => r.1
    | .error _ => l
  | .compactedCalls => l
  | .deriveMessages | .compactedResults | .holdsResults _ | .ignoredCompactions
  | .resultSeqs _ => l.afterRead
  | .setScrubber scrub => l.setScrubber scrub
  | .setSensitiveScrubber scrub => l.setSensitiveScrubber scrub

def run (l : Log) (calls : List Call) : Log := calls.foldl after l

/-- A log as a session begins with it: empty, or restored from recorded events. -/
def Started (l : Log) : Prop := l = newLog ∨ ∃ events, restoreLog events = .ok l

/-- The invariant of a log: its events read as a transcript in sequence order, and a warm
projection is the projection of that transcript. -/
structure Coherent (l : Log) : Prop where
  reads : ∃ xs, List.Forall₂ Entry.Reads l.events xs ∧ (l.proj.valid = true →
    l.proj.toLedger = ledgerOf xs ∧ l.proj.toHistory = historyOf (ledgerOf xs) xs)
  ordered : l.events.Pairwise (fun a b => a.seq < b.seq)
  bounded : ∀ e ∈ l.events, 0 < e.seq ∧ e.seq ≤ l.seq
  nonneg : 0 ≤ l.seq

end Log

/-! Appending one event. -/

/-- What an accepted append did. -/
structure Appended (l : Log) (t : EventType) (l' : Log) (e : Event)
    (projected : Projected) : Prop where
  type : e.type = t
  seq : e.seq = l.seq+1
  decoded : Log.decodePayload l.events t e.data = .ok projected
  events : l'.events = l.events ++ [e]
  last : l'.seq = l.seq+1
  proj : l'.proj = extendProjection l.proj t (l.seq+1) projected

lemma append_ok {l l' : Log} {t : EventType} {payload : Payload} {e : Event}
    (h : l.append t payload = .ok (l',e)) : ∃ projected, Appended l t l' e projected := by
  obtain ⟨raw,_,h⟩ := bind_ok h
  obtain ⟨_,_,h⟩ := bind_ok h
  obtain ⟨projected,hd,h⟩ := bind_ok h
  cases h
  exact ⟨projected,⟨rfl,rfl,hd,rfl,rfl,rfl⟩⟩

/-- Append decodes exactly what a replay reads back, and extends a warm projection by it. -/
lemma append_reads {l l' : Log} {t : EventType} {e : Event} {projected : Projected}
    (h : Appended l t l' e projected) : ∃ x, Entry.Reads e x ∧
      (t = .toolResultCompacted ∧ l'.proj.valid = false ∨
        (∀ c, x ≠ .compaction c) ∧ l'.proj.valid = l.proj.valid ∧ (l.proj.valid = true →
          l'.proj.toLedger = l.proj.toLedger ∧
          l'.proj.toHistory = l.proj.toHistory.record l.proj.toLedger x)) := by
  have hd := h.decoded
  have ht := h.type
  have hp := h.proj
  unfold Log.decodePayload at hd
  split at hd
  · obtain ⟨c,hc,_⟩ := bind_ok hd
    exact ⟨_,Entry.reads_compaction ht (during_ok hc),.inl ⟨rfl,by rw [hp]; rfl⟩⟩
  · obtain ⟨d,hm,hd⟩ := bind_ok hd
    cases hd
    refine ⟨_,Entry.reads_userMessage ht (during_ok hm),.inr ⟨by simp,?_⟩⟩
    rw [hp]
    simp only [extendProjection]
    split_ifs with hv
    · exact ⟨rfl,fun _ => ⟨rfl,rfl⟩⟩
    · exact ⟨rfl,fun hv' => absurd hv' hv⟩
  · obtain ⟨d,hm,hd⟩ := bind_ok hd
    cases hd
    refine ⟨_,Entry.reads_assistantMessage ht (during_ok hm),.inr ⟨by split_ifs <;> simp,?_⟩⟩
    rw [hp]
    simp only [extendProjection]
    split_ifs with hc hv
    · exact ⟨rfl,fun _ => ⟨rfl,rfl⟩⟩
    · exact ⟨rfl,fun _ => ⟨rfl,rfl⟩⟩
    · exact ⟨rfl,fun hv' => absurd hv' hv⟩
  · obtain ⟨d,hm,hd⟩ := bind_ok hd
    obtain ⟨u,hu,hd⟩ := bind_ok hd
    cases hd
    refine ⟨_,Entry.reads_toolResult ht (during_ok hm) hu,.inr ⟨by simp,?_⟩⟩
    rw [hp,h.seq]
    simp only [extendProjection]
    split_ifs with hv
    · exact ⟨rfl,fun _ => ⟨rfl,rfl⟩⟩
    · exact ⟨rfl,fun hv' => absurd hv' hv⟩
  · rename_i h1 h2 h3 h4
    have hs : shapesHistory e.type = false := by
      rw [ht]
      unfold shapesHistory
      split <;> first | rfl | contradiction
    refine ⟨_,Entry.reads_neutral hs,.inr ⟨by simp,?_⟩⟩
    have hp' : l'.proj = l.proj := by
      rw [hp]
      unfold extendProjection
      split <;> first | rfl | contradiction
    rw [hp']
    exact ⟨rfl,fun _ => ⟨rfl,rfl⟩⟩

lemma Ledger.record_of_not_compaction (l : Ledger) {x : Entry} (h : ∀ c, x ≠ .compaction c) :
    l.record x = l := by
  cases x with
  | compaction c => exact absurd rfl (h c)
  | neutral => rfl
  | message m => rfl
  | result seq d => rfl

lemma forall₂_snoc {α β : Type} {R : α → β → Prop} {as : List α} {bs : List β} {a : α} {b : β}
    (h : List.Forall₂ R as bs) (hab : R a b) : List.Forall₂ R (as ++ [a]) (bs ++ [b]) :=
  List.rel_append h (.cons hab .nil)

namespace Log.Coherent
variable {l l' : Log}

/-- The invariant survives every append. -/
theorem append {t : EventType} {payload : Payload} {e : Event} (hl : l.Coherent)
    (h : l.append t payload = .ok (l',e)) : l'.Coherent := by
  obtain ⟨projected,ha⟩ := append_ok h
  obtain ⟨x,hx,hcase⟩ := append_reads ha
  obtain ⟨xs,hxs,hproj⟩ := hl.reads
  have hseq := ha.seq
  have hn := hl.nonneg
  refine ⟨⟨xs ++ [x],?_,?_⟩,?_,?_,?_⟩
  · rw [ha.events]
    exact forall₂_snoc hxs hx
  · intro hv
    rcases hcase with ⟨_,hf⟩ | ⟨hc,hveq,hext⟩
    · rw [hf] at hv
      cases hv
    · rw [hveq] at hv
      obtain ⟨hl1,hh1⟩ := hproj hv
      obtain ⟨hl2,hh2⟩ := hext hv
      rw [ledgerOf_append_singleton,Ledger.record_of_not_compaction _ hc,
        historyOf_append_singleton,hl2,hh2,hl1,hh1]
      exact ⟨rfl,rfl⟩
  · rw [ha.events,List.pairwise_append]
    refine ⟨hl.ordered,by simp,?_⟩
    intro a ha' b hb
    rw [List.mem_singleton.mp hb,hseq]
    have := (hl.bounded a ha').2
    omega
  · intro a ha'
    rw [ha.events,List.mem_append,List.mem_singleton] at ha'
    rw [ha.last]
    rcases ha' with ha' | rfl
    · have := hl.bounded a ha'
      omega
    · omega
  · rw [ha.last]
    omega

/-- A replay of a coherent log succeeds. -/
lemma rebuild (hl : l.Coherent) : ∃ xs, List.Forall₂ Entry.Reads l.events xs ∧
    rebuildProjection l.events = .ok (project xs) := by
  obtain ⟨xs,hxs,_⟩ := hl.reads
  exact ⟨xs,hxs,rebuildProjection_reads hxs⟩

/-- Reading the projection of a coherent log leaves it warm, coherent, and with the same events. -/
theorem warm (hl : l.Coherent) : ∃ w, l.warm = .ok w ∧ w.Coherent ∧ w.events = l.events ∧
    w.proj.valid = true := by
  unfold Log.warm
  split_ifs with hv
  · exact ⟨l,rfl,hl,rfl,hv⟩
  · obtain ⟨xs,hxs,hr⟩ := hl.rebuild
    rw [hr]
    refine ⟨_,rfl,⟨⟨xs,hxs,fun _ => ⟨rfl,rfl⟩⟩,hl.ordered,hl.bounded,hl.nonneg⟩,rfl,rfl⟩

lemma afterRead (hl : l.Coherent) : l.afterRead.Coherent := by
  obtain ⟨w,hw,hc,_⟩ := hl.warm
  simp only [Log.afterRead,hw]
  exact hc

/-- The invariant survives every call. -/
theorem after (hl : l.Coherent) (c : Call) : (l.after c).Coherent := by
  cases c with
  | append t payload =>
    simp only [Log.after]
    cases h : l.append t payload with
    | ok r => exact hl.append h
    | error e => exact hl
  | compactedCalls => exact hl
  | deriveMessages => exact hl.afterRead
  | compactedResults => exact hl.afterRead
  | holdsResults msgs => exact hl.afterRead
  | ignoredCompactions => exact hl.afterRead
  | resultSeqs keys => exact hl.afterRead
  | setScrubber scrub => exact ⟨hl.reads,hl.ordered,hl.bounded,hl.nonneg⟩
  | setSensitiveScrubber scrub => exact ⟨hl.reads,hl.ordered,hl.bounded,hl.nonneg⟩

theorem run (hl : l.Coherent) (calls : List Call) : (l.run calls).Coherent := by
  induction calls generalizing l with
  | nil => exact hl
  | cons c calls ih => exact ih (hl.after c)

end Log.Coherent

/-! Restored logs. -/

lemma checkRestored_ok {r r' : Restoring} {e : Event} (h : checkRestored r e = .ok r') :
    e.type.name ≠ "" ∧ r.last < e.seq ∧ r.turn ≤ e.turn ∧ r' = ⟨r.index+1,e.seq,e.turn,e.step⟩ := by
  unfold checkRestored at h
  split_ifs at h with h1 h2 h3
  cases h
  exact ⟨h1,by omega,by omega,rfl⟩

/-- Accepted events are in sequence order after what came before them. -/
lemma foldlM_checkRestored {es : List Event} {r r' : Restoring}
    (h : es.foldlM checkRestored r = .ok r') :
    es.Pairwise (fun a b => a.seq < b.seq) ∧ (∀ e ∈ es, r.last < e.seq ∧ e.seq ≤ r'.last) ∧
      r.last ≤ r'.last := by
  induction es generalizing r with
  | nil =>
    cases h
    exact ⟨.nil,by simp,le_refl _⟩
  | cons e es ih =>
    rw [List.foldlM_cons] at h
    obtain ⟨r1,h1,h⟩ := bind_ok h
    obtain ⟨_,hlt,_,rfl⟩ := checkRestored_ok h1
    obtain ⟨hp,hb,hle⟩ := ih h
    refine ⟨.cons (fun a ha => (hb a ha).1) hp,?_,?_⟩
    · intro a ha
      rcases List.mem_cons.mp ha with rfl | ha
      · exact ⟨hlt,hle⟩
      · exact ⟨hlt.trans (hb a ha).1,(hb a ha).2⟩
    · exact hlt.le.trans hle

theorem restoreLog_coherent {events : List Event} {l : Log} (h : restoreLog events = .ok l) :
    l.Coherent ∧ l.events = events := by
  obtain ⟨r,hr,h⟩ := bind_ok h
  obtain ⟨derived,hd,h⟩ := bind_ok h
  cases h
  obtain ⟨shared,hs,hd⟩ := bind_ok hd
  obtain ⟨copied,_,hd⟩ := bind_ok hd
  cases hd
  obtain ⟨w,hw,hs⟩ := bind_ok hs
  cases hs
  simp only [Log.warm,emptyProjection,Bool.false_eq_true,if_false] at hw
  obtain ⟨p,hp,hw⟩ := bind_ok hw
  cases hw
  obtain ⟨xs,hxs,rfl⟩ := (rebuildProjection_eq_ok_iff events p).mp hp
  obtain ⟨hpw,hb,hle⟩ := foldlM_checkRestored hr
  exact ⟨⟨⟨xs,hxs,fun _ => ⟨rfl,rfl⟩⟩,hpw,hb,hle⟩,rfl⟩

lemma newLog_coherent : newLog.Coherent :=
  ⟨⟨[],.nil,fun h => by cases h⟩,.nil,by simp [newLog],le_refl _⟩

lemma Log.Started.coherent {l : Log} (h : l.Started) : l.Coherent := by
  rcases h with rfl | ⟨events,h⟩
  · exact newLog_coherent
  · exact (restoreLog_coherent h).1

/-! Deriving the history. -/

/-- What a derive on a coherent log returns: the copied replay. -/
theorem Log.Coherent.derives {l : Log} (hl : l.Coherent) {xs : List Entry}
    (hxs : List.Forall₂ Entry.Reads l.events xs) : ∃ msgs w,
    cloneMessages (project xs).derived = .ok msgs ∧
      l.projected = .ok ((project xs).derived,w) ∧ l.deriveMessages = .ok (msgs,w) := by
  obtain ⟨w,hw,hc,he,hv⟩ := hl.warm
  obtain ⟨ys,hys,hproj⟩ := hc.reads
  obtain ⟨_,hh⟩ := hproj hv
  rw [he] at hys
  rw [← reads_unique hxs hys] at hh
  have hm := cloneMessages_project hxs
  have hd : w.proj.derived = (project xs).derived := by
    rw [hh]
    rfl
  have hp : l.projected = .ok ((project xs).derived,w) := by
    simp only [Log.projected,hw]
    rw [← hd]
    rfl
  refine ⟨_,w,hm,hp,?_⟩
  simp only [Log.deriveMessages,hp]
  change (do let copied ← cloneMessages (project xs).derived; _) = _
  rw [hm]
  rfl

/-- After any calls on a log, deriving its messages returns the copy of a full replay of its
events, and a warm projection is that replay. -/
theorem deriveMessages_eq_replay {start : Log} (hs : start.Started) (calls : List Call) :
    ∃ p msgs w, rebuildProjection (start.run calls).events = .ok p ∧
      cloneMessages p.derived = .ok msgs ∧ (start.run calls).deriveMessages = .ok (msgs,w) ∧
      ((start.run calls).proj.valid = true →
        (start.run calls).proj.toLedger = p.toLedger ∧
        (start.run calls).proj.toHistory = p.toHistory) := by
  have hc := hs.coherent.run calls
  obtain ⟨xs,hxs,hproj⟩ := hc.reads
  obtain ⟨msgs,w,hm,_,hd⟩ := hc.derives hxs
  exact ⟨project xs,msgs,w,rebuildProjection_reads hxs,hm,hd,hproj⟩

/-- A run in which a result is recorded and derived, before it is compacted. -/
def resultCalls : List Call :=
  [.append .turnStart none,
   .append .userMessage (some (.ok (.obj [("message",.obj [("role",.str "user"),
     ("content",.arr [.obj [("kind",.str "text"),("text",.str "run it")]])])]))),
   .append .toolResult (some (.ok (.obj [("tool_call_id",.str "c1"),("text",.str "long output")]))),
   .deriveMessages]

def resultCompaction : CompactionData := ⟨"c1",3,"short",11,5⟩

/-- The same run once the result is compacted, which leaves the projection cold. -/
def compactingCalls : List Call :=
  resultCalls ++ [.append .toolResultCompacted (some (.ok resultCompaction.marshal))]

theorem deriveMessages_eq_replay_compactingCalls : newLog.Started ∧
    (newLog.run compactingCalls).events.length = 4 ∧
    ∃ p msgs w, rebuildProjection (newLog.run compactingCalls).events = .ok p ∧
      cloneMessages p.derived = .ok msgs ∧
      (newLog.run compactingCalls).deriveMessages = .ok (msgs,w) ∧
      ((newLog.run compactingCalls).proj.valid = true →
        (newLog.run compactingCalls).proj.toLedger = p.toLedger ∧
        (newLog.run compactingCalls).proj.toHistory = p.toHistory) :=
  ⟨.inl rfl,by decide,deriveMessages_eq_replay (.inl rfl) compactingCalls⟩

end Manvi.Session
