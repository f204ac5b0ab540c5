import Manvi.Serve.Drained

/-! What the read loop has answered goes out before it waits for the next line, but for one kind of
line. -/
namespace Manvi.Serve
open Manvi.Encoding

/-- A line that decodes to no request, or to one without an identifier. -/
def Config.unroutable (cfg : Config) : Read → Bool
  | .line (b :: bytes) => match cfg.decode (b :: bytes) with
    | .error _ => true
    | .ok req => req.id = ""
  | _ => false

/-- The loop goes back to the next line without a flush exactly after such a line. -/
lemma Config.incoming_unflushed (cfg : Config) (read : Read) :
    (∃ response, cfg.incoming read = .refused response false) ↔ cfg.unroutable read = true := by
  cases read with
  | oversized head => simp [incoming,unroutable]
  | line bytes =>
    cases bytes with
    | nil => simp [incoming,unroutable]
    | cons b bytes =>
      simp only [incoming,unroutable]
      cases cfg.decode (b :: bytes) with
      | error e => simp
      | ok req =>
        by_cases hid : req.id = ""
        · simp [hid]
        · cases hlane : cfg.laneOf req.op <;> simp [hid,hlane]

/-- Every response that the loop itself wrote has gone out. -/
def State.LoopFlushed (s : State) : Prop :=
  ∀ i a, s.answers[i]? = some a → (∀ name, a.via ≠ .lane name) → i < s.flushed

/-- While the loop waits for a line, nothing that it wrote is held back. -/
def Delivered (s : State) : Prop := s.loop = .reading → s.LoopFlushed

/-- The loop is between two of its answers. -/
def Loop.idle : Loop → Bool
  | .reading => true
  | .dispatching _ _ => true
  | _ => false

section
variable {cfg : Config} {s : State}

lemma loopFlushed_flush (hb : (s.flush true).broken = false) : (s.flush true).LoopFlushed := by
  intro i a ha _
  unfold State.flush at hb ha ⊢
  by_cases hbroken : s.broken = true
  · rw [if_pos hbroken] at hb
    rw [hbroken] at hb
    cases hb
  · rw [if_neg hbroken] at ha ⊢
    exact (List.getElem?_eq_some_iff.mp ha).1

/-- A flush loses nothing that was out. -/
lemma State.LoopFlushed.flush (h : s.LoopFlushed) (sent : Bool) : (s.flush sent).LoopFlushed := by
  unfold State.flush
  split_ifs
  · exact h
  · intro i a ha _
    exact (List.getElem?_eq_some_iff.mp ha).1
  · exact h

/-- A response of a lane is not one of the loop. -/
lemma State.LoopFlushed.writeLane (h : s.LoopFlushed) {b : Answer} {name : LaneName}
    (hb : b.via = .lane name)
    (wrote : Bool) : (s.write b wrote).LoopFlushed := by
  unfold State.write
  split_ifs
  · exact h
  · intro i a ha hvia
    by_cases hi : i < s.answers.length
    · rw [List.getElem?_append_left hi] at ha
      exact h i a ha hvia
    · rw [List.getElem?_append_right (not_lt.mp hi)] at ha
      have hlast := List.mem_singleton.mp (List.mem_of_getElem? ha)
      rw [hlast] at hvia
      exact absurd hb (hvia name)
  · exact h

/-- What has gone out is what was asked of the state by its loop, its answers and how many are
out. -/
lemma State.LoopFlushed.frame (h : s.LoopFlushed) {t : State} (answers : t.answers = s.answers)
    (flushed : t.flushed = s.flushed) : t.LoopFlushed := by
  unfold State.LoopFlushed
  rw [answers,flushed]
  exact h

/-- What holds of a run over lines that can all be routed. -/
structure Routed (reads : List Read) (s : State) : Prop where
  rest : ∀ read ∈ s.rest, read ∈ reads
  flushed : s.loop.idle = true → s.LoopFlushed

variable {reads : List Read} {t : State}

lemma Routed.receive (h : Routed reads s) (hroute : ∀ read ∈ reads, cfg.unroutable read = false)
    (hloop : s.loop = .reading)
    {read : Read} {rest : List Read} (hrest : s.rest = read :: rest) (wrote : Bool) :
    Routed reads (receive cfg s read wrote) := by
  have hout : s.LoopFlushed := h.flushed (by rw [hloop]; rfl)
  have htail : ∀ r ∈ s.rest.tail, r ∈ reads := fun r hr => h.rest r (List.mem_of_mem_tail hr)
  unfold Serve.receive
  cases hin : cfg.incoming read with
  | blank => exact ⟨htail,fun _ => hout.frame rfl rfl⟩
  | refused response flushes =>
    cases flushes with
    | false =>
      have hnot := (cfg.incoming_unflushed read).mp ⟨response,hin⟩
      rw [hroute read (h.rest read (by rw [hrest]; exact List.mem_cons_self))] at hnot
      cases hnot
    | true =>
      refine ⟨?_,by simp [Loop.idle]⟩
      dsimp only
      rw [State.write_rest]
      exact htail
  | lane name req =>
    dsimp only
    split_ifs
    · refine ⟨?_,by simp [Loop.idle]⟩
      dsimp only
      rw [State.write_rest]
      exact htail
    · exact ⟨htail,fun _ => hout.frame rfl rfl⟩
  | inline req => exact ⟨htail,fun _ => hout.frame rfl rfl⟩

lemma Routed.step (h : Routed reads s) (hroute : ∀ read ∈ reads, cfg.unroutable read = false)
    {act : Act}
    (ht : step cfg s act = some t) : Routed reads t := by
  cases act with
  | receive wrote =>
    simp only [Serve.step] at ht
    split_ifs at ht with hloop
    cases hrest : s.rest with
    | nil =>
      rw [hrest] at ht
      cases hfault : s.fault <;>
      · rw [hfault] at ht
        cases ht
        exact ⟨by simp,by simp [Loop.idle]⟩
    | cons read rest =>
      rw [hrest] at ht
      cases ht
      exact h.receive hroute hloop hrest wrote
  | answer outcome wrote =>
    simp only [Serve.step] at ht
    cases hloop : s.loop with
    | dispatching i req =>
      rw [hloop] at ht
      cases ht
      refine ⟨?_,by simp [Loop.idle]⟩
      dsimp only
      rw [State.write_rest]
      exact h.rest
    | _ =>
      rw [hloop] at ht
      cases ht
  | flush sent =>
    simp only [Serve.step] at ht
    cases hloop : s.loop with
    | flushing =>
      rw [hloop] at ht
      cases ht
      refine ⟨?_,?_⟩
      · dsimp only
        rw [State.flush_rest]
        exact h.rest
      · intro hidle
        have hb : (s.flush sent).broken = false := by
          cases hb : (s.flush sent).broken with
          | false => rfl
          | true => simp [hb,Loop.idle] at hidle
        cases sent with
        | true => exact (loopFlushed_flush hb).frame rfl rfl
        | false =>
          unfold State.flush at hb
          by_cases hbroken : s.broken = true <;> simp [hbroken] at hb
    | closing ended =>
      rw [hloop] at ht
      cases ht
      refine ⟨?_,by simp [Loop.idle]⟩
      dsimp only
      rw [State.flush_rest]
      exact h.rest
    | _ =>
      rw [hloop] at ht
      cases ht
  | cancel =>
    simp only [Serve.step] at ht
    split_ifs at ht
    cases ht
    exact ⟨h.rest,by simp [Loop.idle]⟩
  | drain =>
    simp only [Serve.step] at ht
    cases hloop : s.loop with
    | draining ended err =>
      rw [hloop] at ht
      cases ht
      exact ⟨h.rest,by simp [Loop.idle]⟩
    | _ =>
      rw [hloop] at ht
      cases ht
  | leave sent =>
    simp only [Serve.step] at ht
    cases hloop : s.loop with
    | draining ended err =>
      rw [hloop] at ht
      dsimp only at ht
      rw [Option.ite_none_right_eq_some] at ht
      obtain ⟨-,ht⟩ := ht
      cases ht
      refine ⟨?_,by simp [Loop.idle]⟩
      dsimp only
      rw [State.flush_rest]
      exact h.rest
    | _ =>
      rw [hloop] at ht
      cases ht
  | begin name =>
    simp only [Serve.step] at ht
    split at ht
    · cases ht
      exact ⟨h.rest,fun hidle => (h.flushed hidle).frame rfl rfl⟩
    · cases ht
  | finish name outcome wrote =>
    simp only [Serve.step] at ht
    split at ht
    · cases ht
      refine ⟨?_,?_⟩
      · simp only [State.setLane,State.write_rest]
        exact h.rest
      · intro hidle
        simp only [State.setLane,State.write_loop] at hidle
        exact ((h.flushed hidle).writeLane rfl wrote).frame rfl rfl
    · cases ht
  | flushLane name sent =>
    simp only [Serve.step] at ht
    split_ifs at ht
    cases ht
    refine ⟨?_,?_⟩
    · simp only [State.setLane,State.flush_rest]
      exact h.rest
    · intro hidle
      simp only [State.setLane,State.flush_loop] at hidle
      exact ((h.flushed hidle).flush sent).frame rfl rfl

theorem Reaches.routed {input : Input} (h : Reaches cfg input s)
    (hroute : ∀ read ∈ input.reads, cfg.unroutable read = false) : Routed input.reads s := by
  induction h with
  | start => exact ⟨fun _ hr => hr,fun _ i a ha => by simp [Serve.start] at ha⟩
  | step _ act ht ih => exact ih.step hroute ht

/-- A server that was refused by its configuration reads nothing. -/
lemma Reaches.refused {input : Input} (h : Reaches cfg input s) (hcfg : cfg.configErr ≠ none) :
    ∃ ended err, s.loop = .returned ended err := by
  induction h with
  | start =>
    obtain ⟨e,he⟩ := Option.ne_none_iff_exists'.mp hcfg
    exact ⟨none,some (.config e),by simp [Serve.start,he]⟩
  | @step s t _ act ht ih =>
    obtain ⟨ended,err,hloop⟩ := ih
    cases act with
    | begin name =>
      simp only [Serve.step] at ht
      split at ht
      · cases ht
        exact ⟨ended,err,hloop⟩
      · cases ht
    | finish name outcome wrote =>
      simp only [Serve.step] at ht
      split at ht
      · cases ht
        exact ⟨ended,err,by simp only [State.setLane,State.write_loop,hloop]⟩
      · cases ht
    | flushLane name sent =>
      simp only [Serve.step] at ht
      split_ifs at ht
      cases ht
      exact ⟨ended,err,by simp only [State.setLane,State.flush_loop,hloop]⟩
    | _ => simp [Serve.step,hloop] at ht

/-- A writer that has not failed, with a loop that waits for the line at a position. -/
structure Waits (reads : List Read) (k : ℕ) (s : State) : Prop where
  loop : s.loop = .reading
  rest : s.rest = reads.drop k
  sound : s.broken = false
  within : s.flushed ≤ s.answers.length

/-- An answer that goes out brings the loop back to the next line. -/
lemma Waits.answered {input : Input} {k : ℕ} (h : Reaches cfg input s) (loop : s.loop = .flushing)
    (rest : s.rest = input.reads.drop k) (sound : s.broken = false) :
    ∃ u, Reaches cfg input u ∧ Waits input.reads k u := by
  refine ⟨_,h.step (.flush true) (by simp only [Serve.step,loop]; rfl),?_⟩
  simp only [State.flush,sound,Bool.false_eq_true,if_false,if_true]
  exact ⟨rfl,rest,rfl,le_rfl⟩

/-- The loop takes a line and comes back to the next one. -/
lemma Waits.next {input : Input} {k : ℕ} (h : Reaches cfg input s) (w : Waits input.reads k s)
    {read : Read}
    (hread : input.reads[k]? = some read) :
    ∃ u, Reaches cfg input u ∧ Waits input.reads (k+1) u := by
  obtain ⟨hlt,hget⟩ := List.getElem?_eq_some_iff.mp hread
  have hrest : s.rest = read :: input.reads.drop (k+1) := by
    rw [w.rest,List.drop_eq_getElem_cons hlt,hget]
  have hstep : Serve.step cfg s (.receive true) = some (Serve.receive cfg s read true) := by
    simp only [Serve.step,w.loop,if_true,hrest]
  have hreach := h.step _ hstep
  unfold Serve.receive at hreach
  cases hin : cfg.incoming read with
  | blank =>
    simp only [hin,hrest,List.tail_cons] at hreach
    exact ⟨_,hreach,w.loop,rfl,w.sound,w.within⟩
  | refused response flushes =>
    simp only [hin,hrest,List.tail_cons,State.write,w.sound,Bool.false_eq_true,if_false,
      if_true] at hreach
    cases flushes with
    | true => exact Waits.answered hreach rfl rfl rfl
    | false => exact ⟨_,hreach,rfl,rfl,rfl,by simpa using w.within.trans (Nat.le_succ _)⟩
  | lane name req =>
    simp only [hin,hrest,List.tail_cons] at hreach
    split_ifs at hreach
    · simp only [State.write,w.sound,Bool.false_eq_true,if_false,if_true] at hreach
      exact Waits.answered hreach rfl rfl rfl
    · exact ⟨_,hreach,w.loop,rfl,w.sound,w.within⟩
  | inline req =>
    simp only [hin,hrest,List.tail_cons] at hreach
    have hanswer := hreach.step (.answer (.panicked "") true) rfl
    simp only [State.write,w.sound,Bool.false_eq_true,if_false,if_true] at hanswer
    exact Waits.answered hanswer rfl rfl rfl

/-- Every line of an input can be come to with a writer that has not failed. -/
lemma exists_waits {input : Input} (hcfg : cfg.configErr = none) {k : ℕ}
    (hk : k ≤ input.reads.length) :
    ∃ s, Reaches cfg input s ∧ Waits input.reads k s := by
  induction k with
  | zero => exact ⟨_,.start,by simp [Serve.start,hcfg],rfl,rfl,le_rfl⟩
  | succ k ih =>
    obtain ⟨s,hs,w⟩ := ih (by omega)
    exact w.next hs (List.getElem?_eq_getElem (by omega))

end

/-- Whatever a run over an input does, the loop waits for no line while an answer of its own is held
back, exactly when the server is not configured or each line is blank, too large, or a request with
an identifier. -/
theorem delivered_iff (cfg : Config) (input : Input) :
    (∀ s, Reaches cfg input s → Delivered s) ↔
      cfg.configErr ≠ none ∨ ∀ read ∈ input.reads, cfg.unroutable read = false := by
  constructor
  · intro hall
    by_contra hnot
    simp only [not_or,not_not,not_forall,Bool.not_eq_false] at hnot
    obtain ⟨hcfg,read,hmem,hun⟩ := hnot
    obtain ⟨k,hk,hget⟩ := List.getElem_of_mem hmem
    obtain ⟨s,hs,w⟩ := exists_waits hcfg hk.le
    obtain ⟨response,hin⟩ := (cfg.incoming_unflushed read).mpr hun
    have hrest : s.rest = read :: input.reads.drop (k+1) := by
      rw [w.rest,List.drop_eq_getElem_cons hk,hget]
    have hreach := hs.step (.receive true) (by simp only [step,w.loop,if_true,hrest]; rfl)
    have hlast := hall _ hreach
    simp only [receive,hin,State.write,w.sound,Bool.false_eq_true,if_false,if_true] at hlast
    have hout := hlast rfl s.answers.length ⟨s.line,.refusal,response⟩ (by simp) (by simp)
    exact absurd w.within (not_le.mpr hout)
  · rintro (hcfg | hroute) s hs hloop
    · obtain ⟨ended,err,hreturned⟩ := hs.refused hcfg
      rw [hreturned] at hloop
      cases hloop
    · exact (hs.routed hroute).flushed (by rw [hloop]; rfl)

/-- A line that is no request is refused, and the refusal stays in the buffer while the loop
waits. -/
theorem malformed_unflushed : ∃ s, Reaches sampleConfig ⟨[120,10],none⟩ s ∧ ¬ Delivered s := by
  have heval : (runs sampleConfig (start sampleConfig ⟨[120,10],none⟩) [.receive true]).map
    (fun s =>
      (s.loop,s.answers.map Answer.via,s.flushed)) = some (.reading,[.refusal],0) := by
    decide
  obtain ⟨s,hs,hall⟩ := Option.map_eq_some_iff.mp heval
  simp only [Prod.mk.injEq] at hall
  obtain ⟨hloop,hvia,hflushed⟩ := hall
  refine ⟨s,Reaches.start.runs hs,?_⟩
  intro hdelivered
  obtain ⟨a,hanswers,ha⟩ := List.map_eq_singleton_iff.mp hvia
  have hout := hdelivered hloop 0 a (by rw [hanswers]; rfl) (by simp [ha])
  rw [hflushed] at hout
  exact absurd hout (Nat.lt_irrefl 0)

end Manvi.Serve
