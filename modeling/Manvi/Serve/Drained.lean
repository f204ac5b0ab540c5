import Manvi.Encoding.Space
import Manvi.Serve.Answers

/-! The way out of the read loop waits for every lane, so that what was accepted is answered. -/
namespace Manvi.Serve
open Manvi.Encoding

/-- The loop has taken everything there was to read. -/
def Loop.atEOF : Loop → Bool
  | .closing .eof => true
  | .draining (some .eof) _ => true
  | .returned (some .eof) _ => true
  | _ => false

/-- The loop takes no more lines. -/
def Loop.leaving : Loop → Bool
  | .draining _ _ => true
  | .returned _ _ => true
  | _ => false

/-- What the way out of the loop waits for, and the bound of the queues. -/
structure Bounds (s : State) : Prop where
  room : ∀ name, (s.lanes name).queue.length ≤ laneQueue
  closed : s.closed = true → s.loop.leaving = true
  eof : s.loop.atEOF = true → s.rest = []
  done : ∀ ended err, s.loop = .returned ended err → ∀ name, s.lanes name = ⟨[],.waiting⟩
  sound : ∀ ended, s.loop = .returned ended none → s.broken = false ∧ s.flushed = s.answers.length

section
variable {cfg : Config} {s t : State}

lemma mem_laneNames (name : LaneName) : name ∈ laneNames := by
  cases name <;> decide

/-- A step of the loop to a place where nothing is promised yet. -/
lemma Bounds.moves (h : Bounds s) (lanes : ∀ name, (t.lanes name).queue.length ≤ laneQueue)
    (closed : t.closed = s.closed)
    (rest : t.loop.atEOF = true → t.rest = [])
    (leaving : s.loop.leaving = true → t.loop.leaving = true)
    (live : ∀ ended err, t.loop ≠ .returned ended err) : Bounds t := by
  refine ⟨lanes,?_,rest,?_,?_⟩
  · intro hc
    exact leaving (h.closed (closed ▸ hc))
  · intro ended err hr
    exact (live ended err hr).elim
  · intro ended hr
    exact (live ended none hr).elim

lemma receive_room (h : Bounds s) (read : Read) (wrote : Bool) (name : LaneName) :
    ((receive cfg s read wrote).lanes name).queue.length ≤ laneQueue := by
  unfold receive
  dsimp only
  split
  · exact h.room name
  · dsimp only
    rw [State.write_lanes]
    exact h.room name
  · rename_i m req _
    by_cases hfull : s.closed = true ∨ laneQueue ≤ (s.lanes m).queue.length
    · rw [if_pos hfull]
      dsimp only
      rw [State.write_lanes]
      exact h.room name
    · rw [if_neg hfull]
      change ((Function.update s.lanes m _) name).queue.length ≤ laneQueue
      by_cases hm : name = m
      · subst hm
        rw [Function.update_self]
        have hroom := not_le.mp (not_or.mp hfull).2
        simp only [List.length_append,List.length_singleton]
        omega
      · rw [Function.update_of_ne hm]
        exact h.room name
  · exact h.room name

/-- A line that is taken leads back to the reading, to a flush or to a dispatch. -/
lemma receive_loop (cfg : Config) (hs : s.loop = .reading) (read : Read) (wrote : Bool) :
    (receive cfg s read wrote).closed = s.closed ∧ (receive cfg s read wrote).loop.atEOF = false ∧
      (receive cfg s read wrote).loop.leaving = false := by
  have hclosed : ∀ s a b, (State.write s a b).closed = s.closed := by
    intro s a b
    unfold State.write
    split_ifs <;> rfl
  unfold receive
  dsimp only
  split
  · rw [hs]
    exact ⟨rfl,rfl,rfl⟩
  · refine ⟨hclosed _ _ _,?_,?_⟩ <;> dsimp only <;> split_ifs <;> rfl
  · split_ifs
    · exact ⟨hclosed _ _ _,rfl,rfl⟩
    · change s.closed = s.closed ∧ s.loop.atEOF = false ∧ s.loop.leaving = false
      rw [hs]
      exact ⟨rfl,rfl,rfl⟩
  · exact ⟨rfl,rfl,rfl⟩

lemma not_returned_of_leaving {l : Loop} (h : l.leaving = false) (ended : Option Ended)
    (err : Option ServeError) :
    l ≠ .returned ended err := by
  rintro rfl
  cases h

lemma flush_closed (s : State) (b : Bool) : (s.flush b).closed = s.closed := by
  unfold State.flush
  split_ifs <;> rfl

lemma write_closed (s : State) (a : Answer) (b : Bool) : (s.write a b).closed = s.closed := by
  unfold State.write
  split_ifs <;> rfl

/-- A flush that does not fail has sent everything. -/
lemma flushed_of_sound {b : Bool} (h : (s.flush b).broken = false) :
    (s.flush b).flushed = (s.flush b).answers.length := by
  unfold State.flush at h ⊢
  split_ifs at h ⊢ with hbroken
  · rw [hbroken] at h
    cases h
  · rfl

/-- A step of one lane, which has something to do. -/
lemma Bounds.lane (h : Bounds s) (name : LaneName) (lane : Lane)
    (hbusy : s.lanes name ≠ ⟨[],.waiting⟩)
    (hroom : lane.queue.length ≤ laneQueue) (lanes : t.lanes = Function.update s.lanes name lane)
    (closed : t.closed = s.closed) (loop : t.loop = s.loop) (rest : t.rest = s.rest) :
    Bounds t := by
  refine h.moves ?_ closed ?_ ?_ ?_
  · intro m
    rw [lanes]
    by_cases hm : m = name
    · subst hm
      rw [Function.update_self]
      exact hroom
    · rw [Function.update_of_ne hm]
      exact h.room m
  · intro he
    rw [rest]
    exact h.eof (loop ▸ he)
  · rw [loop]
    exact id
  · intro ended err hr
    exact hbusy (h.done ended err (loop ▸ hr) name)

lemma step_bounds (h : Bounds s) {act : Act} (ht : step cfg s act = some t) : Bounds t := by
  unfold step at ht
  cases act with
  | receive wrote =>
    dsimp only at ht
    split_ifs at ht with hloop
    have hleaving : s.loop.leaving = true → t.loop.leaving = true := by
      rw [hloop]
      exact fun h => by cases h
    split at ht
    · rename_i hrest
      split at ht
      · cases ht
        exact h.moves h.room rfl (fun _ => hrest) hleaving (by simp)
      · cases ht
        exact h.moves h.room rfl (fun he => by cases he) hleaving (by simp)
    · rename_i read more hrest
      cases ht
      obtain ⟨hc,he,hl⟩ := receive_loop cfg hloop read wrote
      refine h.moves (receive_room h read wrote) hc ?_ hleaving (not_returned_of_leaving hl)
      rw [he]
      exact fun h => by cases h
  | answer outcome wrote =>
    dsimp only at ht
    split at ht
    · rename_i i req hloop
      cases ht
      refine h.moves ?_ (write_closed _ _ _) (fun he => by cases he) ?_ (by simp)
      · intro name
        dsimp only
        rw [State.write_lanes]
        exact h.room name
      · rw [hloop]
        exact fun h => by cases h
    · cases ht
  | flush sent =>
    dsimp only at ht
    split at ht
    · rename_i hloop
      cases ht
      refine h.moves ?_ (flush_closed _ _) ?_ ?_ ?_
      · intro name
        dsimp only
        rw [State.flush_lanes]
        exact h.room name
      · dsimp only
        split_ifs <;> exact fun he => by cases he
      · rw [hloop]
        exact fun h => by cases h
      · dsimp only
        intro ended err
        split_ifs <;> simp
    · rename_i ended hloop
      cases ht
      refine h.moves ?_ (flush_closed _ _) ?_ ?_ (by simp)
      · intro name
        dsimp only
        rw [State.flush_lanes]
        exact h.room name
      · intro he
        dsimp only
        rw [State.flush_rest]
        apply h.eof
        rw [hloop]
        cases ended with
        | eof => rfl
        | cancelled => cases he
        | failed e => cases he
      · exact fun _ => rfl
    · cases ht
  | cancel =>
    dsimp only at ht
    split_ifs at ht with hloop
    cases ht
    refine h.moves h.room rfl (fun he => by cases he) ?_ (by simp)
    rw [hloop]
    exact fun h => by cases h
  | drain =>
    dsimp only at ht
    split at ht
    · rename_i ended err hloop
      cases ht
      refine ⟨h.room,?_,h.eof,h.done,h.sound⟩
      intro _
      dsimp only
      rw [hloop]
      rfl
    · cases ht
  | leave sent =>
    dsimp only at ht
    split at ht
    · rename_i ended err hloop
      by_cases hquiet : s.closed = true ∧ laneNames.all s.quiet = true
      swap
      · rw [if_neg hquiet] at ht
        cases ht
      rw [if_pos hquiet] at ht
      cases ht
      refine ⟨?_,fun _ => rfl,?_,?_,?_⟩
      · intro name
        dsimp only
        rw [State.flush_lanes]
        exact h.room name
      · intro he
        dsimp only
        rw [State.flush_rest]
        apply h.eof
        rw [hloop]
        cases ended with
        | none => cases he
        | some e =>
          cases e with
          | eof => rfl
          | cancelled => cases he
          | failed e => cases he
      · intro _ _ _ name
        dsimp only
        rw [State.flush_lanes]
        have hq := List.all_eq_true.mp hquiet.2 name (mem_laneNames name)
        simp only [State.quiet,Bool.and_eq_true,decide_eq_true_eq] at hq
        cases hlane : s.lanes name with
        | mk queue work =>
          rw [hlane] at hq
          obtain ⟨rfl,rfl⟩ := hq
          rfl
      · intro ended' hr
        have herr := (Loop.returned.inj hr).2
        rw [Option.or_eq_none_iff] at herr
        have hfine : (s.flush sent).broken = false := by
          by_contra hbroken
          rw [if_pos (.inl (by simpa using hbroken))] at herr
          cases herr.2
        exact ⟨hfine,flushed_of_sound hfine⟩
    · cases ht
  | begin name =>
    dsimp only at ht
    split at ht
    · rename_i i req queue hwork hqueue
      cases ht
      have hroom := h.room name
      rw [hqueue,List.length_cons] at hroom
      refine h.lane name ⟨queue,.running i req⟩ ?_ (by dsimp only; omega) rfl rfl rfl rfl
      intro hidle
      rw [hidle] at hqueue
      cases hqueue
    · cases ht
  | finish name outcome wrote =>
    dsimp only at ht
    split at ht
    · rename_i i req hwork
      cases ht
      refine h.lane name ⟨(s.lanes name).queue,.flushing⟩ ?_ (h.room name) ?_ (write_closed _ _ _)
        (State.write_loop _ _ _)
        (State.write_rest _ _ _)
      · intro hidle
        rw [hidle] at hwork
        cases hwork
      · simp [State.setLane]
    · cases ht
  | flushLane name sent =>
    dsimp only at ht
    split_ifs at ht with hwork
    cases ht
    refine h.lane name ⟨(s.lanes name).queue,.waiting⟩ ?_ (h.room name) ?_ (flush_closed _ _)
      (State.flush_loop _ _)
      (State.flush_rest _ _)
    · intro hidle
      rw [hidle] at hwork
      cases hwork
    · simp [State.setLane]

theorem Reaches.bounds {input : Input} (h : Reaches cfg input s) : Bounds s := by
  induction h with
  | start =>
    refine ⟨fun _ => Nat.zero_le _,?_,?_,fun _ _ _ _ => rfl,fun _ _ => ⟨rfl,rfl⟩⟩
    · intro hc
      cases hc
    · intro he
      unfold Manvi.Serve.start at he
      dsimp only at he
      split at he <;> cases he
  | step _ act ht ih => exact step_bounds ih ht

/-- A refusal as busy comes of a line whose lane is full. -/
lemma receive_busy (h : Bounds s) (hs : s.loop = .reading) (read : Read) (wrote : Bool) {a : Answer}
    {name : LaneName}
    (ha : (receive cfg s read wrote).answers = s.answers ++ [a]) (hvia : a.via = .busy name) :
    (s.lanes name).queue.length = laneQueue := by
  have hopen : s.closed = false := by
    cases hc : s.closed with
    | false => rfl
    | true =>
      have hleaving := h.closed hc
      rw [hs] at hleaving
      cases hleaving
  have hwritten : ∀ {s' : State} {b : Answer}, (s'.write b wrote).answers = s'.answers ++ [a] →
    a = b := by
    intro s' b hw
    rcases wrote_write s' b wrote with ⟨hb,_⟩ | ⟨hb,_⟩
    · rw [hb] at hw
      exact (List.singleton_inj.mp (List.append_cancel_left hw)).symm
    · rw [hb] at hw
      simp at hw
  unfold receive at ha
  dsimp only at ha
  split at ha
  · simp at ha
  · rw [hwritten ha] at hvia
    cases hvia
  · rename_i m req _
    by_cases hfull : s.closed = true ∨ laneQueue ≤ (s.lanes m).queue.length
    · rw [if_pos hfull] at ha
      rw [hwritten ha] at hvia
      cases hvia
      exact le_antisymm (h.room _) (hfull.resolve_left (by simp [hopen]))
    · rw [if_neg hfull] at ha
      simp [State.setLane] at ha
  · simp at ha

lemma busy_full (h : Bounds s) {act : Act} (ht : step cfg s act = some t) {a : Answer}
    {name : LaneName}
    (ha : t.answers = s.answers ++ [a]) (hvia : a.via = .busy name) :
    (s.lanes name).queue.length = laneQueue := by
  have hsame : t.answers ≠ s.answers := by
    rw [ha]
    simp
  have hother : ∀ b, Wrote s t b → b.via ≠ .busy name → False := by
    intro b hwrote hne
    rcases hwrote with ⟨hb,_⟩ | ⟨hb,_⟩
    · rw [ha] at hb
      rw [List.singleton_inj.mp (List.append_cancel_left hb)] at hvia
      exact hne hvia
    · exact hsame hb
  unfold step at ht
  cases act with
  | receive wrote =>
    dsimp only at ht
    split_ifs at ht with hloop
    split at ht
    · split at ht <;> cases ht <;> exact (hsame rfl).elim
    · cases ht
      exact receive_busy h hloop _ wrote ha hvia
  | answer outcome wrote =>
    dsimp only at ht
    split at ht
    · cases ht
      exact (hother _ (wrote_write s _ wrote) (by simp)).elim
    · cases ht
  | flush sent =>
    dsimp only at ht
    split at ht
    · cases ht
      exact (hsame (State.flush_answers _ _)).elim
    · cases ht
      exact (hsame (State.flush_answers _ _)).elim
    · cases ht
  | cancel =>
    dsimp only at ht
    split_ifs at ht
    cases ht
    exact (hsame rfl).elim
  | drain =>
    dsimp only at ht
    split at ht
    · cases ht
      exact (hsame rfl).elim
    · cases ht
  | leave sent =>
    dsimp only at ht
    split at ht
    · by_cases hquiet : s.closed = true ∧ laneNames.all s.quiet = true
      · rw [if_pos hquiet] at ht
        cases ht
        exact (hsame (State.flush_answers _ _)).elim
      · rw [if_neg hquiet] at ht
        cases ht
    · cases ht
  | begin m =>
    dsimp only at ht
    split at ht
    · cases ht
      exact (hsame rfl).elim
    · cases ht
  | finish m outcome wrote =>
    dsimp only at ht
    split at ht
    · cases ht
      exact (hother _ (wrote_write s _ wrote) (by simp)).elim
    · cases ht
  | flushLane m sent =>
    dsimp only at ht
    split_ifs at ht
    cases ht
    exact (hsame (State.flush_answers _ _)).elim

end

namespace State

/-- The responses to a line. -/
def answersTo (s : State) (i : ℕ) : List Response :=
  (s.answers.filter (fun a => a.line = i)).map Answer.response

end State

/-- Every request line has one answer, under its identifier if it has one, and no other line has
any. -/
structure AnsweredOnce (cfg : Config) (reads : List Read) (s : State) : Prop where
  blank : ∀ i, reads[i]? = some (.line []) → s.answersTo i = []
  one : ∀ i read, reads[i]? = some read → read ≠ .line [] → ∃ r, s.answersTo i = [r]
  named : ∀ i bytes req, reads[i]? = some (.line bytes) → bytes ≠ [] → cfg.decode bytes = .ok req →
    req.id ≠ "" →
    ∃ r, s.answersTo i = [r] ∧ r.id = req.id
  only : ∀ a ∈ s.answers, a.line < reads.length

section
variable {cfg : Config} {s : State} {reads : List Read}

@[simp] lemma length_answersTo (s : State) (i : ℕ) : (s.answersTo i).length = s.answered i := by
  unfold State.answersTo State.answered
  rw [List.length_map,List.count_eq_countP,List.countP_map,List.countP_eq_length_filter]
  rfl

/-- The identifier of a line is that of the request it decodes to. -/
lemma answerID_of_decode {bytes : List UInt8} {req : Request} (hne : bytes ≠ [])
    (h : cfg.decode bytes = .ok req)
    (hid : req.id ≠ "") : cfg.answerID (.line bytes) = some req.id := by
  cases bytes with
  | nil => exact (hne rfl).elim
  | cons b bytes =>
    unfold Config.answerID Config.incoming
    dsimp only
    rw [h]
    dsimp only
    rw [if_neg hid]
    cases cfg.laneOf req.op <;> rfl

lemma answerID_isSome {read : Read} (h : read ≠ .line []) : (cfg.answerID read).isSome = true := by
  unfold Config.answerID
  split
  · rename_i hin
    unfold Config.incoming at hin
    split at hin
    · cases hin
    · exact (h rfl).elim
    · split at hin
      · cases hin
      · split_ifs at hin
        split at hin <;> cases hin
  · rfl
  · rfl
  · rfl

/-- Nothing is owed once every lane is done and the loop has left. -/
lemma Inv.answeredOnce (h : Inv cfg reads s) (hsound : s.broken = false)
    (hall : reads.length ≤ s.line)
    (hdone : ∀ name, s.lanes name = ⟨[],.waiting⟩) (hloop : ∀ i req, s.loop ≠ .dispatching i req) :
    AnsweredOnce cfg reads s := by
  have hcount : ∀ i read, reads[i]? = some read →
      s.answered i = if (cfg.answerID read).isSome then 1 else 0 := by
    intro i read hread
    have hlt := (List.getElem?_eq_some_iff.mp hread).1
    rw [← h.once hsound i read (by omega) hread]
    have hnone : waiting cfg s i read = 0 := by
      unfold waiting
      split
      · unfold State.pendingOn
        rw [hdone]
        rfl
      · exact if_neg (hloop _ _)
      · rfl
    omega
  have hone : ∀ i read, reads[i]? = some read → (cfg.answerID read).isSome = true →
      ∃ r, s.answersTo i = [r] ∧ cfg.answerID read = some r.id := by
    intro i read hread hsome
    have hlen := hcount i read hread
    rw [if_pos hsome,← length_answersTo] at hlen
    obtain ⟨r,hr⟩ := List.length_eq_one_iff.mp hlen
    refine ⟨r,hr,?_⟩
    have hmem : r ∈ s.answersTo i := by simp [hr]
    obtain ⟨a,ha,rfl⟩ := List.mem_map.mp hmem
    obtain ⟨hin,hline⟩ := List.mem_filter.mp ha
    obtain ⟨_,read',hread',hid⟩ := h.answers a hin
    rw [show a.line = i by simpa using hline,hread] at hread'
    cases hread'
    exact hid
  refine ⟨?_,?_,?_,?_⟩
  · intro i hread
    have hlen := hcount i _ hread
    rw [← length_answersTo] at hlen
    exact List.length_eq_zero_iff.mp hlen
  · intro i read hread hne
    obtain ⟨r,hr,_⟩ := hone i read hread (answerID_isSome hne)
    exact ⟨r,hr⟩
  · intro i bytes req hread hne hdecode hid
    have hname := answerID_of_decode hne hdecode hid
    obtain ⟨r,hr,hrid⟩ := hone i _ hread (by rw [hname]; rfl)
    rw [hname] at hrid
    exact ⟨r,hr,(Option.some.inj hrid).symm⟩
  · intro a ha
    obtain ⟨_,read,hread,_⟩ := h.answers a ha
    exact (List.getElem?_eq_some_iff.mp hread).1

end

/-- Whatever the host sends, the handlers do and the order of the steps is: a lane runs and answers
in the order of arrival, it refuses only when its queue is full, and when the server has returned at
the end of its input with no error, every request line has its one answer. -/
theorem serve_answers_once {cfg : Config} {input : Input} {s : State} (h : Reaches cfg input s) :
    (∀ name, (s.answeredBy name).Pairwise (· < ·) ∧ (s.ranBy name).Pairwise (· < ·)) ∧
    (∀ act t a name, step cfg s act = some t → t.answers = s.answers ++ [a] → a.via = .busy name →
      (s.lanes name).queue.length = laneQueue) ∧
    (s.loop = .returned (some .eof) none → AnsweredOnce cfg input.reads s ∧
      s.flushed = s.answers.length) := by
  have hinv := h.inv
  have hbounds := h.bounds
  refine ⟨?_,?_,?_⟩
  · intro name
    exact ⟨(List.pairwise_append.mp (hinv.order name)).1,
      (List.pairwise_append.mp (hinv.ran name).1).1⟩
  · intro act t a name ht ha hvia
    exact busy_full hbounds ht ha hvia
  · intro hloop
    have hrest := hbounds.eof (by rw [hloop]; rfl)
    rw [hinv.rest] at hrest
    have hall := List.drop_eq_nil_iff.mp hrest
    obtain ⟨hsound,hflushed⟩ := hbounds.sound _ hloop
    exact ⟨hinv.answeredOnce hsound hall (hbounds.done _ _ hloop) (by simp [hloop]),hflushed⟩

/-- The state after some steps, if each of them may be taken. -/
def runs (cfg : Config) (s : State) (acts : List Act) : Option State := acts.foldlM (step cfg) s

lemma Reaches.runs {cfg : Config} {input : Input} {s t : State} (h : Reaches cfg input s)
    {acts : List Act}
    (ht : runs cfg s acts = some t) : Reaches cfg input t := by
  induction acts generalizing s with
  | nil =>
    cases ht
    exact h
  | cons act acts ih =>
    obtain ⟨u,hu,ht⟩ := Option.bind_eq_some_iff.mp ht
    exact ih (h.step act hu) ht

def helloLine : List UInt8 := ascii "\x7b\"id\":\"1\",\"op\":\"hello\"\x7d"

def scanLine : List UInt8 := ascii "\x7b\"id\":\"2\",\"op\":\"local.scan\"\x7d"

/-- A server of two operations, with what a decoder makes of the two lines. -/
def sampleConfig : Config where
  handlers := [opHello,opLocalScan]
  decode bytes :=
    if bytes = helloLine then .ok ⟨"1",opHello,[]⟩
    else if bytes = scanLine then .ok ⟨"2",opLocalScan,[]⟩
    else .error "invalid character"
  recoverID _ := ""
  configErr := none

/-- Two requests with a blank line between them, the second without a terminator. -/
def sampleInput : Input := ⟨helloLine ++ [10,10] ++ scanLine,none⟩

/-- The loop answers the first, and is at the end of its input before the lane panics on the
second. -/
def sampleActs : List Act :=
  [.receive true,.answer (.returned (.ok .null)) true,.flush true,.receive true,.receive true,
    .begin .localProbe,
   .receive true,.flush true,.drain,.finish .localProbe (.panicked "nil map") true,
   .flushLane .localProbe true,
   .leave true]

theorem serve_answers_once_sampleActs : ∃ s, Reaches sampleConfig sampleInput s ∧
    s.answers.map (fun a => a.response.id) = ["1","2"] ∧
    AnsweredOnce sampleConfig sampleInput.reads s := by
  have heval : (runs sampleConfig (start sampleConfig sampleInput) sampleActs).map (fun s =>
      (s.loop,s.answers.map (fun a => a.response.id))) = some (.returned (some .eof) none,
        ["1","2"]) := by
    decide
  obtain ⟨s,hs,hboth⟩ := Option.map_eq_some_iff.mp heval
  obtain ⟨hloop,hids⟩ := Prod.mk.inj hboth
  have hreaches := Reaches.start.runs hs
  exact ⟨s,hreaches,hids,((serve_answers_once hreaches).2.2 hloop).1⟩

end Manvi.Serve
