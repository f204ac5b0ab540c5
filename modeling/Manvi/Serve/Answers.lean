import Manvi.Serve.Server

/-! Every line that the read loop takes is answered once, whatever the lanes do meanwhile. -/
namespace Manvi.Serve
open Manvi.Encoding

/-- The identifier under which a line is answered; a blank line is not. -/
def Config.answerID (cfg : Config) (read : Read) : Option String :=
  match cfg.incoming read with
  | .blank => none
  | .refused response _ => some response.id
  | .lane _ req => some req.id
  | .inline req => some req.id

namespace State

/-- The lines that a lane has answered, in the order of the answers. -/
def answeredBy (s : State) (name : LaneName) : List ℕ :=
  (s.answers.filter (fun a => a.via = .lane name)).map Answer.line

/-- The lines that a lane has begun to run, in that order. -/
def ranBy (s : State) (name : LaneName) : List ℕ :=
  (s.ran.filter (fun e => e.1 = name)).map Prod.snd

/-- The lines that wait in a lane or are run there. -/
def pendingOn (s : State) (name : LaneName) : List ℕ := (s.lanes name).pending.map Prod.fst

/-- How often a line was answered. -/
def answered (s : State) (i : ℕ) : ℕ := (s.answers.map Answer.line).count i

end State

/-- How many answers to a line are still to come: of its lane, or of the loop itself. -/
def waiting (cfg : Config) (s : State) (i : ℕ) (read : Read) : ℕ :=
  match cfg.incoming read with
  | .lane name _ => (s.pendingOn name).count i
  | .inline req => if s.loop = .dispatching i req then 1 else 0
  | _ => 0

/-- What holds between the read loop and the lanes. -/
structure Inv (cfg : Config) (reads : List Read) (s : State) : Prop where
  rest : s.rest = reads.drop s.line
  held : ∀ name, ∀ e ∈ (s.lanes name).pending, e.1 < s.line ∧
    ∃ read, reads[e.1]? = some read ∧ cfg.incoming read = .lane name e.2
  inline : ∀ i req, s.loop = .dispatching i req → i < s.line ∧
    ∃ read, reads[i]? = some read ∧ cfg.incoming read = .inline req
  answers : ∀ a ∈ s.answers, a.line < s.line ∧
    ∃ read, reads[a.line]? = some read ∧ cfg.answerID read = some a.response.id
  once : s.broken = false → ∀ i read, i < s.line → reads[i]? = some read →
    s.answered i + waiting cfg s i read = if (cfg.answerID read).isSome then 1 else 0
  order : ∀ name, (s.answeredBy name ++ s.pendingOn name).Pairwise (· < ·)
  ran : ∀ name, (s.ranBy name ++ (s.lanes name).queue.map Prod.fst).Pairwise (· < ·) ∧
    ∀ i ∈ s.ranBy name, i < s.line

section
variable {cfg : Config} {reads : List Read} {s t : State}

lemma Inv.answeredBy_lt (h : Inv cfg reads s) {name : LaneName} {i : ℕ}
    (hi : i ∈ s.answeredBy name) : i < s.line := by
  obtain ⟨a,ha,rfl⟩ := List.mem_map.mp hi
  exact (h.answers a (List.mem_filter.mp ha).1).1

lemma Inv.pendingOn_lt (h : Inv cfg reads s) {name : LaneName} {i : ℕ} (hi : i ∈ s.pendingOn name) :
    i < s.line := by
  obtain ⟨e,he,rfl⟩ := List.mem_map.mp hi
  exact (h.held name e he).1

lemma Inv.answered_eq_zero (h : Inv cfg reads s) {i : ℕ} (hi : s.line ≤ i) : s.answered i = 0 := by
  apply List.count_eq_zero_of_not_mem
  intro hmem
  obtain ⟨a,ha,rfl⟩ := List.mem_map.mp hmem
  exact absurd (h.answers a ha).1 (not_lt.mpr hi)

/-- A step that moves no line keeps everything. -/
lemma Inv.frame (h : Inv cfg reads s) (rest : t.rest = s.rest) (line : t.line = s.line)
    (lanes : ∀ name, (t.lanes name).pending = (s.lanes name).pending)
    (answers : t.answers = s.answers)
    (loop : ∀ i req, t.loop = .dispatching i req ↔ s.loop = .dispatching i req)
    (broken : t.broken = false → s.broken = false)
    (ran : ∀ name, t.ranBy name ++ (t.lanes name).queue.map Prod.fst =
      s.ranBy name ++ (s.lanes name).queue.map Prod.fst)
    (ranLine : ∀ name, ∀ i ∈ t.ranBy name, i < s.line) : Inv cfg reads t := by
  have hpending : ∀ name, t.pendingOn name = s.pendingOn name := by
    intro name
    unfold State.pendingOn
    rw [lanes]
  have hanswered : ∀ i, t.answered i = s.answered i := by
    intro i
    unfold State.answered
    rw [answers]
  refine ⟨?_,?_,?_,?_,?_,?_,?_⟩
  · rw [rest,line]
    exact h.rest
  · intro name e he
    rw [lanes] at he
    rw [line]
    exact h.held name e he
  · intro i req hi
    rw [line]
    exact h.inline i req ((loop i req).mp hi)
  · rw [answers,line]
    exact h.answers
  · intro hb i read hi hread
    rw [line] at hi
    rw [hanswered,← h.once (broken hb) i read hi hread]
    unfold waiting
    split
    · rw [hpending]
    · rw [if_congr (loop i _) rfl rfl]
    · rfl
  · intro name
    have hby : t.answeredBy name = s.answeredBy name := by
      unfold State.answeredBy
      rw [answers]
    rw [hby,hpending]
    exact h.order name
  · intro name
    rw [ran,line]
    exact ⟨(h.ran name).1,ranLine name⟩

end

/-- Every response carries the identifier of its request. -/
lemma Config.dispatch_id (cfg : Config) (req : Request) (o : Outcome) :
    (cfg.dispatch req o).id = req.id := by
  unfold Config.dispatch
  split <;> rfl

namespace State
variable (s : State) (a : Answer) (b : Bool)

@[simp] lemma write_rest : (s.write a b).rest = s.rest := by unfold write; split_ifs <;> rfl
@[simp] lemma write_line : (s.write a b).line = s.line := by unfold write; split_ifs <;> rfl
@[simp] lemma write_lanes : (s.write a b).lanes = s.lanes := by unfold write; split_ifs <;> rfl
@[simp] lemma write_ran : (s.write a b).ran = s.ran := by unfold write; split_ifs <;> rfl
@[simp] lemma flush_rest : (s.flush b).rest = s.rest := by unfold flush; split_ifs <;> rfl
@[simp] lemma flush_line : (s.flush b).line = s.line := by unfold flush; split_ifs <;> rfl
@[simp] lemma flush_lanes : (s.flush b).lanes = s.lanes := by unfold flush; split_ifs <;> rfl
@[simp] lemma flush_ran : (s.flush b).ran = s.ran := by unfold flush; split_ifs <;> rfl
@[simp] lemma write_loop : (s.write a b).loop = s.loop := by unfold write; split_ifs <;> rfl
@[simp] lemma flush_loop : (s.flush b).loop = s.loop := by unfold flush; split_ifs <;> rfl
@[simp] lemma flush_answers : (s.flush b).answers = s.answers := by unfold flush; split_ifs <;> rfl

lemma flush_broken (h : (s.flush b).broken = false) : s.broken = false := by
  unfold flush at h
  split_ifs at h with hb
  · exact h
  · exact Bool.eq_false_iff.mpr hb

end State

/-- A line goes to the writer: it is added to what was written, or the writer has failed. -/
def Wrote (s t : State) (a : Answer) : Prop :=
  (t.answers = s.answers ++ [a] ∧ s.broken = false) ∨ (t.answers = s.answers ∧ t.broken = true)

lemma wrote_write (s : State) (a : Answer) (b : Bool) : Wrote s (s.write a b) a := by
  unfold State.write
  by_cases hb : s.broken = true
  · rw [if_pos hb]
    exact .inr ⟨rfl,hb⟩
  · rw [if_neg hb]
    cases b with
    | true => exact .inl ⟨rfl,Bool.eq_false_iff.mpr hb⟩
    | false => exact .inr ⟨rfl,rfl⟩

section
variable {cfg : Config} {reads : List Read} {s t : State} {a : Answer}

namespace Wrote

lemma answered (h : Wrote s t a) (hb : t.broken = false) (i : ℕ) :
    s.broken = false ∧ t.answered i = s.answered i + if i = a.line then 1 else 0 := by
  rcases h with ⟨ha,hs⟩ | ⟨_,ht⟩
  · refine ⟨hs,?_⟩
    unfold State.answered
    rw [ha,List.map_append,List.count_append]
    congr 1
    by_cases hi : i = a.line
    · rw [if_pos hi,hi]
      simp
    · rw [if_neg hi]
      exact List.count_eq_zero_of_not_mem (by simpa using hi)
  · rw [hb] at ht
    cases ht

lemma mem (h : Wrote s t a) {c : Answer} (hc : c ∈ t.answers) : c ∈ s.answers ∨ c = a := by
  rcases h with ⟨ha,_⟩ | ⟨ha,_⟩
  · rw [ha] at hc
    exact (List.mem_append.mp hc).imp_right List.mem_singleton.mp
  · rw [ha] at hc
    exact .inl hc

lemma answeredBy_other (h : Wrote s t a) {name : LaneName} (hne : a.via ≠ .lane name) :
    t.answeredBy name = s.answeredBy name := by
  unfold State.answeredBy
  rcases h with ⟨ha,_⟩ | ⟨ha,_⟩
  · rw [ha,List.filter_append,List.filter_cons_of_neg (by simpa using hne),List.filter_nil,
      List.append_nil]
  · rw [ha]

lemma answeredBy_self (h : Wrote s t a) {name : LaneName} (hvia : a.via = .lane name) :
    t.answeredBy name = s.answeredBy name ++ [a.line] ∨ t.answeredBy name = s.answeredBy name := by
  unfold State.answeredBy
  rcases h with ⟨ha,_⟩ | ⟨ha,_⟩
  · left
    rw [ha,List.filter_append,List.filter_cons_of_pos (by simpa using hvia),List.filter_nil,
      List.map_append]
    rfl
  · exact .inr (by rw [ha])

end Wrote

/-- The loop answers a request that it has run. -/
lemma Inv.answerInline (h : Inv cfg reads s) {i : ℕ} {req : Request}
    (hloop : s.loop = .dispatching i req)
    (hwrote : Wrote s t a) (hline : a.line = i) (hid : a.response.id = req.id)
    (hvia : ∀ name, a.via ≠ .lane name)
    (rest : t.rest = s.rest) (line : t.line = s.line) (lanes : t.lanes = s.lanes)
    (ran : t.ran = s.ran)
    (loop : ∀ i req, t.loop ≠ .dispatching i req) : Inv cfg reads t := by
  obtain ⟨hi,read,hread,hin⟩ := h.inline i req hloop
  have hpending : ∀ name, t.pendingOn name = s.pendingOn name := by
    intro name
    unfold State.pendingOn
    rw [lanes]
  refine ⟨?_,?_,?_,?_,?_,?_,?_⟩
  · rw [rest,line]
    exact h.rest
  · rw [lanes,line]
    exact h.held
  · intro j req' hj
    exact (loop j req' hj).elim
  · intro c hc
    rw [line]
    rcases hwrote.mem hc with hc | rfl
    · exact h.answers c hc
    · rw [hline]
      exact ⟨hi,read,hread,by rw [Config.answerID,hin,hid]⟩
  · intro hb j read' hj hread'
    rw [line] at hj
    obtain ⟨hs,hcount⟩ := hwrote.answered hb j
    have honce := h.once hs j read' hj hread'
    rw [hcount,hline,← honce]
    unfold waiting
    by_cases hji : j = i
    · subst hji
      rw [hread] at hread'
      cases hread'
      rw [hin]
      dsimp only
      rw [if_pos rfl,if_neg (loop _ _),if_pos hloop]
    · rw [if_neg hji]
      split
      · rw [hpending]
        rfl
      · rw [if_neg (loop _ _),if_neg]
        rw [hloop]
        intro heq
        exact hji (Loop.dispatching.inj heq).1.symm
      · rfl
  · intro name
    rw [hwrote.answeredBy_other (hvia name),hpending]
    exact h.order name
  · intro name
    unfold State.ranBy
    rw [ran,lanes,line]
    exact h.ran name

/-- A lane answers the request that it has run. -/
lemma Inv.answerLane (h : Inv cfg reads s) {name : LaneName} {i : ℕ} {req : Request}
    (hpending : (s.lanes name).pending = (i,req) :: (s.lanes name).queue) (hwrote : Wrote s t a)
    (hline : a.line = i)
    (hid : a.response.id = req.id) (hvia : a.via = .lane name) (rest : t.rest = s.rest)
    (line : t.line = s.line)
    (lanes : t.lanes = Function.update s.lanes name ⟨(s.lanes name).queue,.flushing⟩)
    (ran : t.ran = s.ran)
    (loop : t.loop = s.loop) : Inv cfg reads t := by
  obtain ⟨hi,read,hread,hin⟩ := h.held name (i,req) (hpending ▸ List.mem_cons_self)
  have hself : t.lanes name = ⟨(s.lanes name).queue,.flushing⟩ := by rw [lanes,Function.update_self]
  have hother : ∀ {m}, m ≠ name → t.lanes m = s.lanes m :=
    fun hm => by rw [lanes,Function.update_of_ne hm]
  have hbefore : s.pendingOn name = i :: (s.lanes name).queue.map Prod.fst := by
    unfold State.pendingOn
    rw [hpending]
    rfl
  have hafter : t.pendingOn name = (s.lanes name).queue.map Prod.fst := by
    unfold State.pendingOn
    rw [hself]
    rfl
  have hsame : ∀ {m}, m ≠ name → t.pendingOn m = s.pendingOn m := by
    intro m hm
    unfold State.pendingOn
    rw [hother hm]
  refine ⟨?_,?_,?_,?_,?_,?_,?_⟩
  · rw [rest,line]
    exact h.rest
  · intro m e he
    rw [line]
    by_cases hm : m = name
    · subst hm
      rw [hself] at he
      exact h.held m e (hpending ▸ List.mem_cons_of_mem _ he)
    · rw [hother hm] at he
      exact h.held m e he
  · rw [loop,line]
    exact h.inline
  · intro c hc
    rw [line]
    rcases hwrote.mem hc with hc | rfl
    · exact h.answers c hc
    · rw [hline]
      exact ⟨hi,read,hread,by rw [Config.answerID,hin,hid]⟩
  · intro hb j read' hj hread'
    rw [line] at hj
    obtain ⟨hs,hcount⟩ := hwrote.answered hb j
    have honce := h.once hs j read' hj hread'
    rw [hcount,hline,← honce]
    unfold waiting
    by_cases hji : j = i
    · subst hji
      rw [hread] at hread'
      cases hread'
      rw [hin]
      dsimp only
      rw [if_pos rfl,hbefore,hafter,List.count_cons_self]
      omega
    · rw [if_neg hji]
      split
      · rename_i m _ _
        by_cases hm : m = name
        · subst hm
          rw [hbefore,hafter,List.count_cons_of_ne (fun he => hji he.symm)]
          rfl
        · rw [hsame hm]
          rfl
      · rw [loop]
        rfl
      · rfl
  · intro m
    by_cases hm : m = name
    · subst hm
      have horder := h.order m
      rw [hbefore] at horder
      rw [hafter]
      rcases hwrote.answeredBy_self hvia with hby | hby
      · rw [hby,hline,List.append_assoc]
        exact horder
      · rw [hby]
        exact horder.sublist (List.Sublist.append_left (List.sublist_cons_self _ _) _)
    · rw [hwrote.answeredBy_other (by rw [hvia]; exact fun he => hm (Via.lane.inj he).symm),
        hsame hm]
      exact h.order m
  · intro m
    have hqueue : (t.lanes m).queue = (s.lanes m).queue := by
      by_cases hm : m = name
      · subst hm
        rw [hself]
      · rw [hother hm]
    unfold State.ranBy
    rw [ran,hqueue,line]
    exact h.ran m

/-- How the loop leaves a line that it has taken. -/
inductive Received (cfg : Config) (s : State) (read : Read) (t : State) : Prop
  | blank (none : cfg.answerID read = none) (answers : t.answers = s.answers)
      (lanes : t.lanes = s.lanes)
      (broken : t.broken = s.broken) (loop : ∀ i req, t.loop ≠ .dispatching i req)
  | answered (a : Answer) (wrote : Wrote s t a) (line : a.line = s.line)
      (id : cfg.answerID read = some a.response.id)
      (via : ∀ name, a.via ≠ .lane name) (own : ∀ req, cfg.incoming read ≠ .inline req)
      (lanes : t.lanes = s.lanes)
      (loop : ∀ i req, t.loop ≠ .dispatching i req)
  | queued (name : LaneName) (req : Request) (incoming : cfg.incoming read = .lane name req)
      (answers : t.answers = s.answers) (broken : t.broken = s.broken)
      (lanes : t.lanes = Function.update s.lanes name
        { s.lanes name with queue := (s.lanes name).queue ++ [(s.line,req)] })
      (loop : ∀ i req, t.loop ≠ .dispatching i req)
  | inline (req : Request) (incoming : cfg.incoming read = .inline req)
      (answers : t.answers = s.answers)
      (broken : t.broken = s.broken) (lanes : t.lanes = s.lanes)
      (loop : t.loop = .dispatching s.line req)

lemma pending_append (l : Lane) (e : ℕ × Request) :
    ({ l with queue := l.queue ++ [e] } : Lane).pending = l.pending ++ [e] := by
  unfold Lane.pending
  cases l.work <;> rfl

lemma mem_pending_of_mem_queue {l : Lane} {e : ℕ × Request} (h : e ∈ l.queue) : e ∈ l.pending := by
  unfold Lane.pending
  split
  · exact List.mem_cons_of_mem _ h
  · exact h

lemma waiting_congr {i : ℕ}
    (hpending : ∀ name, (t.pendingOn name).count i = (s.pendingOn name).count i)
    (hloop : ∀ req, t.loop = .dispatching i req ↔ s.loop = .dispatching i req) (read : Read) :
    waiting cfg t i read = waiting cfg s i read := by
  unfold waiting
  split
  · exact hpending _
  · exact if_congr (hloop _) rfl rfl
  · rfl

lemma pairwise_snoc {xs : List ℕ} {n : ℕ} (h : xs.Pairwise (· < ·)) (hlt : ∀ i ∈ xs, i < n) :
    (xs ++ [n]).Pairwise (· < ·) := by
  rw [List.pairwise_append]
  refine ⟨h,List.pairwise_singleton _ _,?_⟩
  intro i hi j hj
  rw [List.mem_singleton.mp hj]
  exact hlt i hi

/-- What a taken line adds to a lane: nothing, or itself at the end. -/
lemma Received.pendingOn {read : Read} (h : Received cfg s read t) (name : LaneName) :
    ((t.lanes name).queue = (s.lanes name).queue ∧
      (t.lanes name).pending = (s.lanes name).pending) ∨
    ∃ req, cfg.incoming read = .lane name req ∧
    (t.lanes name).queue = (s.lanes name).queue ++ [(s.line,req)] ∧
      (t.lanes name).pending = (s.lanes name).pending ++ [(s.line,req)] := by
  cases h with
  | blank _ _ lanes | answered _ _ _ _ _ _ lanes | inline _ _ _ _ lanes =>
    rw [lanes]
    exact .inl ⟨rfl,rfl⟩
  | queued m req incoming _ _ lanes =>
    rw [lanes]
    by_cases hm : name = m
    · subst hm
      rw [Function.update_self,pending_append]
      exact .inr ⟨req,incoming,rfl,rfl⟩
    · rw [Function.update_of_ne hm]
      exact .inl ⟨rfl,rfl⟩

lemma Received.answeredBy {read : Read} (h : Received cfg s read t) (name : LaneName) :
    t.answeredBy name = s.answeredBy name := by
  cases h with
  | answered a wrote _ _ via => exact wrote.answeredBy_other (via name)
  | blank _ answers | queued _ _ _ answers | inline _ _ answers =>
    unfold State.answeredBy
    rw [answers]

lemma Received.dispatching {read : Read} (h : Received cfg s read t) {i : ℕ} {req : Request}
    (hi : t.loop = .dispatching i req) : i = s.line ∧ cfg.incoming read = .inline req := by
  cases h with
  | blank _ _ _ _ loop | answered _ _ _ _ _ _ _ loop | queued _ _ _ _ _ _ loop =>
    exact (loop i req hi).elim
  | inline req' incoming _ _ _ loop =>
    rw [loop] at hi
    obtain ⟨rfl,rfl⟩ := Loop.dispatching.inj hi
    exact ⟨rfl,incoming⟩

/-- The lines before the one taken are answered as they were. -/
lemma Received.answered_other {read : Read} (h : Received cfg s read t) (hb : t.broken = false) :
    s.broken = false ∧ ∀ i, i ≠ s.line → t.answered i = s.answered i := by
  cases h with
  | answered a wrote line =>
    refine ⟨(wrote.answered hb 0).1,?_⟩
    intro i hi
    rw [(wrote.answered hb i).2,line,if_neg hi,Nat.add_zero]
  | blank _ answers _ broken =>
    refine ⟨broken ▸ hb,?_⟩
    intro i _
    unfold State.answered
    rw [answers]
  | queued _ _ _ answers broken | inline _ _ answers broken =>
    refine ⟨broken ▸ hb,?_⟩
    intro i _
    unfold State.answered
    rw [answers]

/-- The line taken is answered, or waits for its one answer. -/
lemma Received.answered_self {read : Read} (h : Received cfg s read t) (hb : t.broken = false)
    (hzero : s.answered s.line = 0) (hnone : ∀ name, (s.pendingOn name).count s.line = 0) :
    t.answered s.line + waiting cfg t s.line read = if (cfg.answerID read).isSome then
    1 else 0 := by
  have hsame : t.answers = s.answers → t.answered s.line = 0 := by
    intro ha
    unfold State.answered at hzero ⊢
    rw [ha,hzero]
  cases h with
  | blank none answers =>
    rw [none,hsame answers]
    unfold Config.answerID at none
    unfold waiting
    split at none
    · rename_i hin
      rw [hin]
      rfl
    all_goals cases none
  | answered a wrote line id _ own lanes =>
    rw [(wrote.answered hb s.line).2,line,if_pos rfl,hzero,id]
    have hwait : waiting cfg t s.line read = 0 := by
      unfold waiting
      split
      · unfold State.pendingOn
        rw [lanes]
        exact hnone _
      · rename_i req hin
        exact (own req hin).elim
      · rfl
    rw [hwait]
    rfl
  | queued name req incoming answers _ lanes =>
    rw [hsame answers]
    have hpending : t.pendingOn name = s.pendingOn name ++ [s.line] := by
      unfold State.pendingOn
      rw [lanes,Function.update_self,pending_append,List.map_append]
      rfl
    unfold waiting Config.answerID
    rw [incoming]
    dsimp only
    rw [hpending,List.count_append,hnone]
    simp
  | inline req incoming answers _ _ loop =>
    rw [hsame answers]
    unfold waiting Config.answerID
    rw [incoming]
    dsimp only
    rw [if_pos loop]
    rfl

/-- The loop takes a line and keeps the invariant. -/
lemma Inv.received (h : Inv cfg reads s) {read : Read} (hread : reads[s.line]? = some read)
    (hloop : s.loop = .reading) (hrest : t.rest = s.rest.tail) (hline : t.line = s.line+1)
    (hran : t.ran = s.ran)
    (hcase : Received cfg s read t) : Inv cfg reads t := by
  have hnone : ∀ name, (s.pendingOn name).count s.line = 0 := by
    intro name
    apply List.count_eq_zero_of_not_mem
    intro hmem
    exact lt_irrefl _ (h.pendingOn_lt hmem)
  have hby := hcase.answeredBy
  refine ⟨?_,?_,?_,?_,?_,?_,?_⟩
  · rw [hrest,hline,h.rest,List.tail_drop]
  · intro name e he
    rw [hline]
    rcases hcase.pendingOn name with ⟨_,hsame⟩ | ⟨req,hin,_,hmore⟩
    · rw [hsame] at he
      obtain ⟨hlt,hfrom⟩ := h.held name e he
      exact ⟨by omega,hfrom⟩
    · rw [hmore] at he
      rcases List.mem_append.mp he with he | he
      · obtain ⟨hlt,hfrom⟩ := h.held name e he
        exact ⟨by omega,hfrom⟩
      · rw [List.mem_singleton.mp he]
        exact ⟨by simp,read,hread,hin⟩
  · intro i req hi
    obtain ⟨rfl,hin⟩ := hcase.dispatching hi
    exact ⟨by omega,read,hread,hin⟩
  · intro c hc
    rw [hline]
    have hold : c ∈ s.answers → c.line < s.line+1 ∧
        ∃ read, reads[c.line]? = some read ∧ cfg.answerID read = some c.response.id := by
      intro hc
      obtain ⟨hlt,hfrom⟩ := h.answers c hc
      exact ⟨by omega,hfrom⟩
    cases hcase with
    | blank _ answers | queued _ _ _ answers | inline _ _ answers => exact hold (answers ▸ hc)
    | answered a wrote line id =>
      rcases wrote.mem hc with hc | rfl
      · exact hold hc
      · rw [line]
        exact ⟨by omega,read,hread,id⟩
  · intro hb i read' hi hread'
    rw [hline] at hi
    obtain ⟨hs,hother⟩ := hcase.answered_other hb
    by_cases hnew : i = s.line
    · subst hnew
      rw [hread] at hread'
      cases hread'
      exact hcase.answered_self hb (h.answered_eq_zero (le_refl _)) hnone
    · rw [hother i hnew,← h.once hs i read' (by omega) hread']
      congr 1
      apply waiting_congr
      · intro name
        unfold State.pendingOn
        rcases hcase.pendingOn name with ⟨_,hsame⟩ | ⟨req,_,_,hmore⟩
        · rw [hsame]
        · have hzero : [s.line].count i = 0 := List.count_eq_zero_of_not_mem (by simpa using hnew)
          rw [hmore,List.map_append,List.count_append,List.map_singleton,hzero,Nat.add_zero]
      · intro req
        constructor
        · intro ht
          exact (hnew (hcase.dispatching ht).1).elim
        · intro hs
          rw [hloop] at hs
          cases hs
  · intro name
    rw [hby]
    rcases hcase.pendingOn name with ⟨_,hsame⟩ | ⟨req,_,_,hmore⟩
    · unfold State.pendingOn
      rw [hsame]
      exact h.order name
    · unfold State.pendingOn
      rw [hmore,List.map_append,← List.append_assoc]
      apply pairwise_snoc (h.order name)
      intro i hi
      rcases List.mem_append.mp hi with hi | hi
      · exact h.answeredBy_lt hi
      · exact h.pendingOn_lt hi
  · intro name
    obtain ⟨hsorted,hlt⟩ := h.ran name
    have hsame : t.ranBy name = s.ranBy name := by
      unfold State.ranBy
      rw [hran]
    rw [hsame,hline]
    refine ⟨?_,fun i hi => by have := hlt i hi; omega⟩
    rcases hcase.pendingOn name with ⟨hqueue,_⟩ | ⟨req,_,hqueue,_⟩
    · rw [hqueue]
      exact hsorted
    · rw [hqueue,List.map_append,← List.append_assoc]
      apply pairwise_snoc hsorted
      intro i hi
      rcases List.mem_append.mp hi with hi | hi
      · exact hlt i hi
      · obtain ⟨e,he,rfl⟩ := List.mem_map.mp hi
        exact h.pendingOn_lt (List.mem_map_of_mem (mem_pending_of_mem_queue he))

lemma received_receive (hs : s.loop = .reading) (read : Read) (wrote : Bool) :
    Received cfg s read (receive cfg s read wrote) := by
  have hstill : ∀ i req, s.loop ≠ .dispatching i req := by
    intro i req
    rw [hs]
    exact Loop.noConfusion
  unfold receive
  dsimp only
  cases hin : cfg.incoming read with
  | blank => exact .blank (by rw [Config.answerID,hin]) rfl rfl rfl hstill
  | refused response flushes =>
    refine .answered ⟨s.line,.refusal,response⟩ ?_ rfl (by rw [Config.answerID,hin])
      (by simp) ?_ ?_ ?_
    · exact wrote_write { s with rest := s.rest.tail, line := s.line+1 } _ wrote
    · intro req
      rw [hin]
      exact Incoming.noConfusion
    · exact State.write_lanes _ _ _
    · intro i req
      dsimp only
      split_ifs <;> exact Loop.noConfusion
  | lane name req =>
    dsimp only
    by_cases hfull : s.closed = true ∨ laneQueue ≤ (s.lanes name).queue.length
    · rw [if_pos hfull]
      refine .answered ⟨s.line,.busy name,busy req name⟩ ?_ rfl (by rw [Config.answerID,hin]; rfl)
        (by simp) ?_ ?_ ?_
      · exact wrote_write { s with rest := s.rest.tail, line := s.line+1 } _ wrote
      · intro req
        rw [hin]
        exact Incoming.noConfusion
      · exact State.write_lanes _ _ _
      · intro i req
        exact Loop.noConfusion
    · rw [if_neg hfull]
      exact .queued name req hin rfl rfl rfl hstill
  | inline req => exact .inline req hin rfl rfl rfl rfl

lemma receive_fields (cfg : Config) (s : State) (read : Read) (wrote : Bool) :
    (receive cfg s read wrote).rest = s.rest.tail ∧
    (receive cfg s read wrote).line = s.line+1 ∧ (receive cfg s read wrote).ran = s.ran := by
  unfold receive
  dsimp only
  split
  · exact ⟨rfl,rfl,rfl⟩
  · simp
  · split_ifs
    · simp
    · exact ⟨rfl,rfl,rfl⟩
  · exact ⟨rfl,rfl,rfl⟩

/-- A step of the loop that only moves the loop on. -/
lemma Inv.moves (h : Inv cfg reads s) {loop : Loop} (hs : ∀ i req, s.loop ≠ .dispatching i req)
    (ht : ∀ i req, loop ≠ .dispatching i req) : Inv cfg reads { s with loop := loop } :=
  h.frame rfl rfl (fun _ => rfl) rfl (fun i req => iff_of_false (ht i req) (hs i req)) id
  (fun _ => rfl)
    (fun name => (h.ran name).2)

lemma Inv.flush (h : Inv cfg reads s) (sent : Bool) : Inv cfg reads (s.flush sent) := by
  refine h.frame (by simp) (by simp) (fun _ => by simp) (by simp) ?_ (s.flush_broken sent) (fun _ =>
    ?_) ?_
  · intro i req
    unfold State.flush
    split_ifs <;> rfl
  · unfold State.ranBy
    simp
  · intro name i hi
    apply (h.ran name).2
    unfold State.ranBy at hi ⊢
    simpa using hi

/-- A lane that changes what it does but not what it has to do. -/
lemma Inv.setLane (h : Inv cfg reads s) {name : LaneName} {lane : Lane} {ran : List (LaneName × ℕ)}
    (hpending : lane.pending = (s.lanes name).pending)
    (hran : ∀ m, ({ s.setLane name lane with ran := ran } : State).ranBy m ++
      (({ s.setLane name lane with ran := ran } : State).lanes m).queue.map Prod.fst =
        s.ranBy m ++ (s.lanes m).queue.map Prod.fst)
    (hline : ∀ m, ∀ i ∈ ({ s.setLane name lane with ran := ran } : State).ranBy m, i < s.line)
    (laneErr : Bool) :
    Inv cfg reads { s.setLane name lane with ran := ran, laneErr := laneErr } := by
  refine h.frame rfl rfl ?_ rfl (fun _ _ => Iff.rfl) id hran hline
  intro m
  change (Function.update s.lanes name lane m).pending = _
  by_cases hm : m = name
  · subst hm
    rw [Function.update_self,hpending]
  · rw [Function.update_of_ne hm]

lemma ranBy_snoc_self {s : State} {name : LaneName} {i : ℕ} {ran : List (LaneName × ℕ)}
    {lane : Lane} :
    ({ s.setLane name lane with ran := ran ++ [(name,i)] } : State).ranBy name =
      ({ s with ran := ran } : State).ranBy name ++ [i] := by
  unfold State.ranBy
  dsimp only
  rw [List.filter_append,List.filter_cons_of_pos (by simp),List.filter_nil,List.map_append]
  rfl

lemma ranBy_snoc_other {s : State} {m name : LaneName} (hm : m ≠ name) {i : ℕ}
    {ran : List (LaneName × ℕ)}
    {lane : Lane} : ({ s.setLane name lane with ran := ran ++ [(name,i)] } : State).ranBy m =
      ({ s with ran := ran } : State).ranBy m := by
  unfold State.ranBy
  dsimp only
  rw [List.filter_append,List.filter_cons_of_neg (by simpa using fun he => hm he.symm),
    List.filter_nil,
    List.append_nil]

lemma step_inv (h : Inv cfg reads s) {act : Act} (ht : step cfg s act = some t) :
    Inv cfg reads t := by
  cases act with
  | receive wrote =>
    unfold step at ht
    dsimp only at ht
    split_ifs at ht with hloop
    have hstill : ∀ i req, s.loop ≠ .dispatching i req := by simp [hloop]
    split at ht
    · split at ht
      · cases ht
        refine h.moves hstill ?_
        simp
      · cases ht
        refine h.moves hstill ?_
        simp
    · rename_i read more hrest
      cases ht
      have hread : reads[s.line]? = some read := by
        have := congrArg List.head? (h.rest.symm.trans hrest)
        rwa [List.head?_drop] at this
      obtain ⟨hr,hl,hran⟩ := receive_fields cfg s read wrote
      exact h.received hread hloop hr hl hran (received_receive hloop read wrote)
  | answer outcome wrote =>
    unfold step at ht
    dsimp only at ht
    split at ht
    · rename_i i req hloop
      cases ht
      exact h.answerInline hloop (wrote_write s _ wrote) rfl (cfg.dispatch_id req outcome) (by simp)
        (by simp)
        (by simp) (by simp) (by simp) (by simp)
    · cases ht
  | flush sent =>
    unfold step at ht
    dsimp only at ht
    have hflush := h.flush sent
    split at ht
    · rename_i hloop
      cases ht
      refine hflush.moves ?_ ?_
      · rw [State.flush_loop,hloop]
        simp
      · intro i req
        split_ifs <;> simp
    · rename_i ended hloop
      cases ht
      refine hflush.moves ?_ (by simp)
      rw [State.flush_loop,hloop]
      simp
    · cases ht
  | cancel =>
    unfold step at ht
    dsimp only at ht
    split_ifs at ht with hloop
    cases ht
    refine h.moves ?_ (by simp)
    simp [hloop]
  | drain =>
    unfold step at ht
    dsimp only at ht
    split at ht
    · cases ht
      exact h.frame rfl rfl (fun _ => rfl) rfl (fun _ _ => Iff.rfl) id (fun _ => rfl) (fun name =>
        (h.ran name).2)
    · cases ht
  | leave sent =>
    unfold step at ht
    dsimp only at ht
    split at ht
    · rename_i ended err hloop
      by_cases hquiet : s.closed = true ∧ laneNames.all s.quiet = true
      swap
      · rw [if_neg hquiet] at ht
        cases ht
      rw [if_pos hquiet] at ht
      cases ht
      refine (h.flush sent).moves ?_ (by simp)
      rw [State.flush_loop,hloop]
      simp
    · cases ht
  | begin name =>
    unfold step at ht
    dsimp only at ht
    split at ht
    · rename_i i req queue hwork hqueue
      cases ht
      refine h.setLane ?_ ?_ ?_ s.laneErr
      · unfold Lane.pending
        rw [hwork,hqueue]
      · intro m
        by_cases hm : m = name
        · subst hm
          rw [ranBy_snoc_self]
          change (s.ranBy m ++ [i]) ++
            ((Function.update s.lanes m ⟨queue,.running i req⟩ m).queue).map Prod.fst = _
          rw [Function.update_self,hqueue,List.append_assoc]
          rfl
        · rw [ranBy_snoc_other hm]
          change s.ranBy m ++ ((Function.update s.lanes name _ m).queue).map Prod.fst = _
          rw [Function.update_of_ne hm]
      · intro m j hj
        by_cases hm : m = name
        · subst hm
          rw [ranBy_snoc_self] at hj
          rcases List.mem_append.mp hj with hj | hj
          · exact (h.ran m).2 j hj
          · rw [List.mem_singleton.mp hj]
            have hmem : (i,req) ∈ (s.lanes m).queue := hqueue ▸ List.mem_cons_self
            exact (h.held m _ (mem_pending_of_mem_queue hmem)).1
        · rw [ranBy_snoc_other hm] at hj
          exact (h.ran m).2 j hj
    · cases ht
  | finish name outcome wrote =>
    unfold step at ht
    dsimp only at ht
    split at ht
    · rename_i i req hwork
      cases ht
      have hpending : (s.lanes name).pending = (i,req) :: (s.lanes name).queue := by
        unfold Lane.pending
        rw [hwork]
      refine h.answerLane hpending (a := ⟨i,.lane name,cfg.dispatch req outcome⟩) ?_ rfl
        (cfg.dispatch_id req outcome)
        rfl ?_ ?_ ?_ ?_ ?_
      · exact wrote_write s _ wrote
      all_goals simp [State.setLane]
    · cases ht
  | flushLane name sent =>
    unfold step at ht
    dsimp only at ht
    split_ifs at ht with hwork
    cases ht
    have hflush := h.flush sent
    refine hflush.setLane ?_ ?_ (fun m => (hflush.ran m).2) _
    · rw [State.flush_lanes]
      unfold Lane.pending
      rw [hwork]
    · intro m
      change (s.flush sent).ranBy m ++
        ((Function.update (s.flush sent).lanes name _ m).queue).map Prod.fst = _
      congr 2
      by_cases hm : m = name
      · subst hm
        rw [Function.update_self,State.flush_lanes]
      · rw [Function.update_of_ne hm]

/-- What holds of every state that a server can be in. -/
theorem Reaches.inv {input : Input} (h : Reaches cfg input s) : Inv cfg input.reads s := by
  induction h with
  | start =>
    refine ⟨rfl,?_,?_,?_,?_,?_,?_⟩
    · intro name e he
      cases he
    · intro i req hloop
      unfold Manvi.Serve.start at hloop
      dsimp only at hloop
      split at hloop <;> cases hloop
    · intro a ha
      cases ha
    · intro _ i read hi
      exact (Nat.not_lt_zero i hi).elim
    · intro name
      exact List.Pairwise.nil
    · intro name
      refine ⟨List.Pairwise.nil,?_⟩
      intro i hi
      cases hi
  | step _ act ht ih => exact step_inv ih ht

end

end Manvi.Serve
