import Manvi.Desktop.Once

/-! The answers of a broker: one for every request it has read that no helper is at work for, and
the journal's for an action it has carried out. -/
namespace Manvi.Desktop
open Manvi.Encoding

/-- An answer that is still to come, or was written already. -/
def Answer.deferred : Answer → Bool
  | .ok none => true
  | _ => false

/-- How many answers under an identity were written or are due from a helper. -/
def Broker.owed (b : Broker) (x : String) : ℕ :=
  (b.out.map Response.id).count x+if (b.pending.get x).isSome then 1 else 0

/-- The events of a record that start an action of a session. -/
def Broker.startsOf (b : Broker) (sid actionID : String) : ℕ :=
  b.record.countP (Record.starts sid actionID)

section Counting
variable {codec : Codec} {env : Env} {ids : List String} {b b' : Broker} {r : Request}
    {sid : String} {s s' : Session}
  {operation : Pending} {response : Response}

lemma Broker.owed_answered (codec : Codec) (b : Broker) (response : Response) (x : String) :
    Broker.owed { b with out := Broker.bounded codec response :: b.out } x =
      b.owed x+if x = response.id then 1 else 0 := by
  simp only [Broker.owed,List.map_cons,bounded_id,List.count_cons,beq_iff_eq]
  by_cases hx : x = response.id
  · simp only [hx,if_true]
    omega
  · have hx' : ¬ response.id = x := fun h => hx h.symm
    simp only [hx,hx',if_false]
    omega

lemma Broker.owed_enter (b : Broker) {p : Pending} {k : String} (hk : b.pending.get k = none)
    (x : String) :
    Broker.owed { b with pending := b.pending.set k p } x = b.owed x+if x = k then 1 else 0 := by
  simp only [Broker.owed,Table.get_set]
  by_cases hx : x = k
  · simp [hx,hk]
  · simp [hx]

lemma Broker.owed_take (b : Broker) {p : Pending} {k : String} (hk : b.pending.get k = some p)
    (x : String) :
    Broker.owed { b with pending := b.pending.erase k } x+(if x = k then 1 else 0) = b.owed x := by
  simp only [Broker.owed,Table.get_erase]
  by_cases hx : x = k
  · simp [hx,hk]
  · simp [hx]

lemma Interrupted.owed (hi : Interrupted codec b sid s b' s') (h : Tidy codec ids none b)
    (x : String) :
    b'.owed x = b.owed x := by
  cases hi with
  | idle hnone => rfl
  | @cancelled id operation hs hp =>
    have hid : (Dispatch.cancelled operation).id = id := (h.keys hp).1
    have htake := b.owed_take hp x
    have hanswer := Broker.owed_answered codec ({ b with pending := b.pending.erase id }.put sid
      ({ s with pending := none }.journal codec operation (Dispatch.cancelled operation)))
      (Dispatch.cancelled operation) x
    rw [hid] at hanswer
    exact hanswer.trans htake

/-- Dispatching a request leaves its own answer to be written unless it is deferred. -/
lemma Dispatched.owed {ans : Answer} (hd : Dispatched codec env r b ans b')
    (h : Tidy codec ids none b)
    (hnew : b.pending.get r.id = none)
    (hreaped : (b.cancels r).isSome = true → env.terminate = none ∧ env.relay = none) (x : String) :
    b'.owed x = b.owed x+if ans.deferred = true ∧ x = r.id then 1 else 0 := by
  have henter : ∀ p, Broker.owed { b with pending := b.pending.set r.id p } x =
      b.owed x+if x = r.id then 1 else 0 := fun p => b.owed_enter hnew x
  cases hd with
  | answered hans =>
    have hlate : ans.deferred = false := by
      cases ans with
      | error e => rfl
      | ok v =>
        cases v with
        | none => exact absurd rfl hans
        | some v => rfl
    simp only [hlate,Bool.false_eq_true,false_and,if_false]
    rfl
  | alone hop =>
    simp only [Answer.deferred,true_and]
    exact henter _
  | weakened hc hw =>
    simp only [Answer.deferred,Bool.false_eq_true,false_and,if_false]
    rfl
  | helped hc hw hop hes =>
    simp only [Answer.deferred,true_and]
    exact henter _
  | performed hc hop hdec hvalid hsid hrun hepoch hfresh hfree hcarries hw htaken =>
    simp only [Answer.deferred,true_and]
    exact henter _
  | approved hc hvalid hsession =>
    simp only [Answer.deferred,Bool.false_eq_true,false_and,if_false]
    rfl
  | resumed hc hw hempty =>
    simp only [Answer.deferred,Bool.false_eq_true,false_and,if_false]
    rfl
  | replayed hc hentry =>
    simp only [Answer.deferred,true_and]
    exact Broker.owed_answered codec b _ x
  | stuck hn hc hop hs hp hfail =>
    have hnone := (hreaped (by rw [Broker.cancels_eq hn hc hop hs hp]; rfl)).1
    rw [hfail] at hnone
    cases hnone
  | lost hn hc hop hs hp hfail =>
    have hnone := (hreaped (by rw [Broker.cancels_eq hn hc hop hs hp]; rfl)).2
    rw [hfail] at hnone
    cases hnone
  | exhausted hc hi =>
    simp only [Answer.deferred,Bool.false_eq_true,false_and,if_false]
    exact hi.owed h x
  | transferred hc hi ht =>
    simp only [Answer.deferred,Bool.false_eq_true,false_and,if_false]
    exact hi.owed h x

/-- What dispatching never touches. -/
lemma Dispatched.frame {ans : Answer} (hd : Dispatched codec env r b ans b') :
    b'.ids = b.ids ∧ b'.read = b.read ∧ b'.ended = b.ended := by
  have hi : ∀ {sid s c t}, Interrupted codec b sid s c t → c.ids = b.ids ∧ c.read = b.read ∧
    c.ended = b.ended := by
    intro sid s c t h
    cases h with
    | idle hnone => exact ⟨rfl,rfl,rfl⟩
    | cancelled hs hp => exact ⟨rfl,rfl,rfl⟩
  cases hd with
  | exhausted hc hint =>
    have hsame := hi hint
    exact hsame
  | transferred hc hint ht =>
    have hsame := hi hint
    exact hsame
  | answered hans => exact ⟨rfl,rfl,rfl⟩
  | alone hop => exact ⟨rfl,rfl,rfl⟩
  | weakened hc hw => exact ⟨rfl,rfl,rfl⟩
  | helped hc hw hop hes => exact ⟨rfl,rfl,rfl⟩
  | performed hc hop hdec hvalid hsid hrun hepoch hfresh hfree hcarries hw htaken =>
    exact ⟨rfl,rfl,rfl⟩
  | approved hc hvalid hsession => exact ⟨rfl,rfl,rfl⟩
  | resumed hc hw hempty => exact ⟨rfl,rfl,rfl⟩
  | replayed hc hentry => exact ⟨rfl,rfl,rfl⟩
  | stuck hn hc hop hs hp hfail => exact ⟨rfl,rfl,rfl⟩
  | lost hn hc hop hs hp hfail => exact ⟨rfl,rfl,rfl⟩

/-- A helper at work on an action owns the input. -/
lemma inputOwned_of_works {k sid actionID : String} {p : Pending} (hp : b.pending.get k = some p)
    (hw : p.WorksOn codec sid actionID) : b.inputOwned = true := by
  apply List.any_eq_true.mpr
  refine ⟨p,Table.mem_values hp,?_⟩
  simp only [ownsInput,hw.2.1,Bool.true_or]

/-- No action of a session is started a second time. -/
lemma Dispatched.once {ans : Answer} (hd : Dispatched codec env r b ans b')
    (h : Tidy codec ids none b)
    (honce : ∀ sid a, b.startsOf sid a ≤ 1) (k a : String) : b'.startsOf k a ≤ 1 := by
  have hi : ∀ {sid s c t}, Interrupted codec b sid s c t → c.record = b.record := by
    intro sid s c t h
    cases h with
    | idle hnone => rfl
    | cancelled hs hp => rfl
  have hnote : ∀ {e : Record} {record : List Record}, record = b.record → e.starts k a = false →
      (e :: record).countP (Record.starts k a) ≤ 1 := by
    intro e record hr he
    rw [List.countP_cons_of_neg (by simp [he]),hr]
    exact honce k a
  cases hd with
  | performed hc hop hdec hvalid hsid hrun hepoch hfresh hfree hcarries hw htaken =>
    next sid s s' use aim w =>
    by_cases hsame : Record.starts k a (.started use aim w) = true
    · have hzero : b.record.countP (Record.starts k a) = 0 := by
        rw [List.countP_eq_zero]
        intro e he hstarts
        simp only [Record.starts,Bool.and_eq_true,decide_eq_true_eq] at hsame
        have hs := (context_ok hc).2.1
        rw [← hsid,hsame.1] at hs
        cases h.accounted he hstarts hs with
        | inl hjournal =>
          rw [hsame.2] at hfresh
          rw [hfresh] at hjournal
          cases hjournal
        | inr hworks =>
          obtain ⟨p,hget,hworks⟩ := hworks
          cases hget with
          | inl hget =>
            obtain ⟨i,hi⟩ := hget
            rw [inputOwned_of_works hi hworks] at hfree
            cases hfree
          | inr hnone => cases hnone
      simp only [Broker.startsOf,List.countP_cons_of_pos hsame,hzero]
      omega
    · exact hnote rfl (by simpa using hsame)
  | helped hc hw hop hes =>
    cases hes with
    | inl he =>
      subst he
      exact honce k a
    | inr he =>
      obtain ⟨rfl,_⟩ := he
      exact hnote rfl rfl
  | approved hc hvalid hsession => exact hnote rfl rfl
  | resumed hc hw hempty => exact hnote rfl rfl
  | exhausted hc hint =>
    have hr := hi hint
    simp only [Broker.startsOf,Broker.put,hr]
    exact honce k a
  | transferred hc hint ht => exact hnote (hi hint) rfl
  | answered hans => exact honce k a
  | alone hop => exact honce k a
  | weakened hc hw => exact honce k a
  | replayed hc hentry => exact honce k a
  | stuck hn hc hop hs hp hfail => exact honce k a
  | lost hn hc hop hs hp hfail => exact honce k a

/-- The parts of a broker that taking in a helper's result leaves alone. -/
structure Aside (b b' : Broker) : Prop where
  ids : b'.ids = b.ids
  read : b'.read = b.read
  ended : b'.ended = b.ended
  out : b'.out = b.out
  pending : b'.pending = b.pending
  starts : ∀ sid a, b'.startsOf sid a = b.startsOf sid a

lemma Aside.trans {c : Broker} (h : Aside b c) (h' : Aside c b') : Aside b b' :=
  ⟨h'.ids.trans h.ids,h'.read.trans h.read,h'.ended.trans h.ended,h'.out.trans h.out,
    h'.pending.trans h.pending,
    fun sid a => (h'.starts sid a).trans (h.starts sid a)⟩

lemma Aside.owed (h : Aside b b') (x : String) : b'.owed x = b.owed x := by
  simp only [Broker.owed,h.out,h.pending]

lemma Settled.aside {result : Except DesktopError Json} (hd : Settled env r b result b') :
    Aside b b' := by
  cases hd with
  | kept hn => exact ⟨rfl,rfl,rfl,rfl,rfl,fun _ _ => rfl⟩
  | attached hop hs => exact ⟨rfl,rfl,rfl,rfl,rfl,fun _ _ => rfl⟩
  | changed hop hs hw hn => exact ⟨rfl,rfl,rfl,rfl,rfl,fun _ _ => rfl⟩
  | observed hop hs hw hempty hn =>
    exact ⟨rfl,rfl,rfl,rfl,rfl,fun _ _ => List.countP_cons_of_neg (by simp [Record.starts])⟩

lemma Concluded.aside (hd : Concluded codec operation response b b') : Aside b b' := by
  cases hd with
  | gone hnone => exact ⟨rfl,rfl,rfl,rfl,rfl,fun _ _ => rfl⟩
  | rested hid hs hop hw => exact ⟨rfl,rfl,rfl,rfl,rfl,fun _ _ => rfl⟩
  | finished hid hs hop hw hempty =>
    exact ⟨rfl,rfl,rfl,rfl,rfl,fun _ _ => List.countP_cons_of_neg (by simp [Record.starts])⟩

lemma releaseIdleLease_aside (b : Broker) : Aside b b.releaseIdleLease := by
  obtain ⟨lease,hl⟩ := b.releaseIdleLease_eq
  rw [hl]
  exact ⟨rfl,rfl,rfl,rfl,rfl,fun _ _ => rfl⟩

lemma Tidy.releaseIdleLease {held : Option Pending} (h : Tidy codec ids held b) :
    Tidy codec ids held b.releaseIdleLease := by
  obtain ⟨lease,hl⟩ := b.releaseIdleLease_eq
  rw [hl]
  exact h.frame rfl rfl rfl rfl

end Counting

/-- A broker in order: nothing started twice and, while it serves, tidy books and balanced
answers. -/
structure Sound (codec : Codec) (b : Broker) : Prop where
  once : ∀ sid a, b.startsOf sid a ≤ 1
  tidy : b.ended = false → Tidy codec b.ids none b
  balanced : b.ended = false → ∀ x, b.owed x = b.read.count x

section Sound
variable {codec : Codec} {env : Env} {b : Broker} {r : Request} {operation : Pending}
    {response : Response}

/-- A broker with one answer left to write, once it has written it or has failed to. -/
lemma Sound.answer (honce : ∀ sid a, b.startsOf sid a ≤ 1) (htidy : Tidy codec b.ids none b)
    (hdue : ∀ x, b.owed x+(if x = response.id then 1 else 0) = b.read.count x) :
    Sound codec (b.answer codec env response) := by
  cases hw : env.write with
  | some e =>
    rw [Broker.answer_ended hw]
    exact ⟨honce,fun h => (by cases h),fun h => (by cases h)⟩
  | none =>
    rw [Broker.answer_written hw]
    refine ⟨honce,fun _ => htidy.frame rfl rfl rfl rfl,?_⟩
    intro _ x
    rw [Broker.owed_answered]
    exact hdue x

lemma Sound.complete {id : String} {result : Except DesktopError Json} (h : Sound codec b)
    (hserving : b.ended = false)
    (hp : b.pending.get id = some operation) :
    Sound codec (completed codec env operation result { b with
      pending := b.pending.erase id }) := by
  unfold completed
  split
  · exact ⟨h.once,fun h => (by cases h),fun h => (by cases h)⟩
  · have hsettled := settle_cases codec env operation.request result { b with
      pending := b.pending.erase id }
    have hconcluded := conclude_cases codec operation
      (Completed.responseTo operation.request
        (Completed.settle codec env operation.request result { b with
          pending := b.pending.erase id }).1)
      (Completed.settle codec env operation.request result { b with
        pending := b.pending.erase id }).2
    have haside := (hsettled.aside.trans hconcluded.aside).trans (releaseIdleLease_aside _)
    have htidy := (hconcluded.tidy (hsettled.tidy ((h.tidy hserving).take hp))).releaseIdleLease
    have hid : operation.request.id = id := ((h.tidy hserving).keys hp).1
    have hresponse : ∀ result, (Completed.responseTo operation.request result).id = id := by
      intro result
      cases result with
      | error e => exact hid
      | ok v => exact hid
    apply Sound.answer
    · intro sid a
      rw [haside.starts]
      exact h.once sid a
    · rw [haside.ids]
      exact htidy
    · intro x
      rw [haside.owed,haside.read,hresponse,b.owed_take hp]
      exact h.balanced hserving x

lemma Sound.finish {id : String} {result : Except DesktopError Json} (h : Sound codec b)
    (hserving : b.ended = false) :
    Sound codec (b.finish codec env id result) := by
  unfold Broker.finish
  split
  · exact h
  · next operation hp => exact h.complete hserving hp

lemma count_read {read : List String} {n : ℕ} {id x : String} (h : n = read.count x) :
    n+(if x = id then 1 else 0) = (id :: read).count x := by
  rw [List.count_cons,h]
  by_cases hx : x = id
  · simp [hx]
  · have hx' : ¬ id = x := fun heq => hx heq.symm
    simp [hx,hx']

lemma Sound.serveRequest (h : Sound codec b) (hserving : b.ended = false)
    (hreaped : b.ids.length < maxRequests → r.id ∉ b.ids → (b.cancels r).isSome = true →
      env.terminate = none ∧ env.relay = none) : Sound codec (b.serveRequest codec env r) := by
  have htidy := h.tidy hserving
  have hbalanced := h.balanced hserving
  unfold Broker.serveRequest
  dsimp only
  by_cases hfull : maxRequests ≤ b.ids.length
  · rw [if_pos hfull]
    exact Sound.answer h.once (htidy.frame rfl rfl rfl rfl) (fun x => count_read (hbalanced x))
  · rw [if_neg hfull]
    by_cases hseen : r.id ∈ b.ids
    · rw [if_pos hseen]
      exact Sound.answer h.once (htidy.frame rfl rfl rfl rfl) (fun x => count_read (hbalanced x))
    · rw [if_neg hseen]
      have hd := dispatch_cases codec env r { b with read := r.id :: b.read, ids := r.id :: b.ids }
      have htidy' : Tidy codec b.ids none { b with read := r.id :: b.read, ids := r.id :: b.ids } :=
        htidy.frame rfl rfl rfl rfl
      have hfresh : b.pending.get r.id = none := by
        by_contra hne
        obtain ⟨p,hp⟩ := Option.ne_none_iff_exists'.mp hne
        exact hseen (htidy.keys hp).2
      have hreaps := hreaped (Nat.lt_of_not_le hfull) hseen
      generalize dispatch codec env r { b with
        read := r.id :: b.read, ids := r.id :: b.ids } = result at hd
      have hframe := hd.frame
      have hside := releaseIdleLease_aside result.2
      have hstarts : ∀ sid a, result.2.releaseIdleLease.startsOf sid a ≤ 1 := by
        intro sid a
        rw [hside.starts]
        exact hd.once htidy' h.once sid a
      have hbooks : Tidy codec result.2.releaseIdleLease.ids none result.2.releaseIdleLease := by
        rw [hside.ids,hframe.1]
        exact (hd.tidy htidy' hseen hreaps).releaseIdleLease
      have howed : ∀ x, result.2.releaseIdleLease.owed x =
          b.owed x+if result.1.deferred = true ∧ x = r.id then 1 else 0 := by
        intro x
        rw [hside.owed]
        exact hd.owed htidy' hfresh hreaps x
      have hdue : result.1.deferred = false →
          ∀ x, result.2.releaseIdleLease.owed x+(if x = r.id then 1 else 0) =
            result.2.releaseIdleLease.read.count x := by
        intro hlate x
        rw [howed,hside.read,hframe.2.1,hlate]
        simpa using count_read (hbalanced x)
      split
      · next value hv => exact Sound.answer hstarts hbooks (hdue (by rw [hv]; rfl))
      · next hv =>
        refine ⟨hstarts,fun _ => hbooks,?_⟩
        intro _ x
        have hlate : result.1.deferred = true := by
          rw [hv]
          rfl
        rw [howed,hside.read,hframe.2.1,hlate]
        simpa using count_read (hbalanced x)
      · next e hv => exact Sound.answer hstarts hbooks (hdue (by rw [hv]; rfl))

end Sound

/-- If the turn reads a pause or a detach that cancels a helper, it reaps the helper and gets the
answer to the helper's request written. -/
def Reaps (b : Broker) : Event × Env → Prop
  | (.request r,env) => b.ended = false → b.ids.length < maxRequests → r.id ∉ b.ids →
      (b.cancels r).isSome = true → env.terminate = none ∧ env.relay = none
  | _ => True

theorem Sound.step {codec : Codec} {b : Broker} (h : Sound codec b) {e : Event × Env}
    (hreaps : Reaps b e) :
    Sound codec (b.step codec e) := by
  unfold Broker.step
  by_cases hended : b.ended = true
  · rw [if_pos hended]
    exact h
  · rw [if_neg hended]
    have hserving : b.ended = false := by simpa using hended
    obtain ⟨event,env⟩ := e
    cases event with
    | request r => exact h.serveRequest hserving (hreaps hserving)
    | invalid failure =>
      exact Sound.answer h.once ((h.tidy hserving).frame rfl rfl rfl rfl)
        (fun x => count_read (h.balanced hserving x))
    | done id result => exact h.finish hserving
    | timeout id => exact h.finish hserving
    | eof => exact ⟨h.once,fun h => (by cases h),fun h => (by cases h)⟩

/-- A run in which every pause and every detach reaps the helper it cancels. -/
def Reaped (codec : Codec) (events : List (Event × Env)) : Prop :=
  ∀ past e rest, events = past ++ e :: rest → Reaps (run codec past) e

lemma start_sound (codec : Codec) : Sound codec start := by
  refine ⟨fun _ _ => Nat.zero_le _,fun _ => ?_,fun _ _ => rfl⟩
  exact ⟨fun h => (by cases h),fun h => (by cases h),fun h => (by cases h),fun h => (by cases h),
    fun h => (by cases h),fun h => (by cases h)⟩

theorem run_sound (codec : Codec) (events : List (Event × Env)) (h : Reaped codec events) :
    Sound codec (run codec events) := by
  induction events using List.reverseRecOn with
  | nil => exact start_sound codec
  | append_singleton events e ih =>
    have hpast : Reaped codec events := by
      intro past d rest heq
      exact h past d (rest ++ [e]) (by rw [heq,List.append_assoc]; rfl)
    have hlast : Reaps (run codec events) e := h events e [] rfl
    have hstep := (ih hpast).step hlast
    rw [run,List.foldl_append]
    exact hstep

section Repeated
variable {codec : Codec} {env : Env} {b : Broker} {r : Request} {sid : String} {s : Session}
    {a : Action}
  {entry : String × Response}

/-- A valid action that the broker lets through to its session: under a new identity, for the run
and the epoch of the session, with a helper to spare and none at work for the session. -/
def Broker.Admits (b : Broker) (r : Request) (s : Session) (a : Action) : Prop :=
  b.ids.length < maxRequests ∧ r.id ∉ b.ids ∧ r.Named ∧ b.pending.size < maxHelpers ∧
  r.runID = some s.runID ∧
    r.epoch = some s.epoch ∧ s.pending = none ∧ a.validate = .ok ()

lemma Op.acts_cases {op : Op} (h : op.acts = true) : op = .act ∨ op = .humanAct := by
  cases op <;> simp [Op.acts] at h ⊢

lemma Dispatch.idle_acts (hop : r.op.acts = true) :
    Dispatch.idle codec env r sid s b = Dispatch.action codec env r sid s b := by
  unfold Dispatch.idle
  cases Op.acts_cases hop with
  | inl h => rw [h]
  | inr h => rw [h]

lemma dispatch_acts (hop : r.op.acts = true) (hn : r.Named) (hsize : b.pending.size < maxHelpers) :
    dispatch codec env r b = Dispatch.withSession codec env r b := by
  have hbusy : ¬ (maxHelpers ≤ b.pending.size ∧ r.op.interrupts = false) :=
    fun h => absurd h.1 (by omega)
  unfold dispatch
  rw [if_neg hn,if_neg hbusy]
  cases Op.acts_cases hop with
  | inl h => rw [h]
  | inr h => rw [h]

/-- A repeated action goes to the journal or is refused, and nothing changes. -/
lemma dispatch_repeated (codec : Codec) (env : Env) (b : Broker) (hop : r.op.acts = true)
    (hsession : r.sessionID = some sid)
    (hs : b.sessions.get sid = some s) (hdec : codec.decodeAction r.payload = .ok a)
    (hentry : s.actions.get a.actionID = some entry) :
    (r.Named ∧ b.pending.size < maxHelpers ∧ r.runID = some s.runID ∧ r.epoch = some s.epoch ∧
        s.pending = none ∧ a.validate = .ok () ∧
      dispatch codec env r b = Dispatch.replay codec env r (Use.binding codec ⟨sid,s.runID,s.epoch,
        a⟩) entry b) ∨
      ¬ (r.Named ∧ b.pending.size < maxHelpers ∧ r.runID = some s.runID ∧ r.epoch = some s.epoch ∧
        s.pending = none ∧ a.validate = .ok ()) ∧ ∃ e, dispatch codec env r b = (.error e,b) := by
  have hacts : r.op.interrupts = false := by
    cases Op.acts_cases hop with
    | inl h => rw [h]; rfl
    | inr h => rw [h]; rfl
  by_cases hn : r.Named
  · by_cases hsize : b.pending.size < maxHelpers
    · rw [dispatch_acts hop hn hsize]
      unfold Dispatch.withSession context
      rw [hsession]
      dsimp only
      rw [hs]
      dsimp only
      by_cases hrun : r.runID = some s.runID
      · rw [if_neg (not_not.mpr hrun)]
        by_cases hepoch : r.epoch = some s.epoch
        · rw [if_neg (not_not.mpr hepoch)]
          dsimp only
          rw [if_neg (by simp [hacts])]
          cases hp : s.pending with
          | some id => exact .inr ⟨by simp,_,rfl⟩
          | none =>
            rw [if_neg (by simp),Dispatch.idle_acts hop]
            unfold Dispatch.action
            rw [hdec]
            dsimp only
            cases hv : a.validate with
            | error e => exact .inr ⟨by simp,_,rfl⟩
            | ok u =>
              refine .inl ⟨hn,hsize,hrun,hepoch,rfl,rfl,?_⟩
              simp only [hop,if_true,hentry]
        · rw [if_pos hepoch]
          exact .inr ⟨fun h => hepoch h.2.2.2.1,_,rfl⟩
      · rw [if_pos hrun]
        exact .inr ⟨fun h => hrun h.2.2.1,_,rfl⟩
    · have heq : dispatch codec env r b =
          (.error (err "broker_busy" "Native helper concurrency limit reached"),b) := by
        unfold dispatch
        rw [if_neg hn,if_pos ⟨Nat.le_of_not_lt hsize,hacts⟩]
      exact .inr ⟨fun h => hsize h.2.1,_,heq⟩
  · have heq : dispatch codec env r b =
        (.error (err "invalid_id" "Request ID must be nonempty and bounded"),b) := by
      unfold dispatch
      rw [if_pos (not_not.mp hn)]
    exact .inr ⟨fun h => hn h.1,_,heq⟩

/-- The answer to a repeated action: the journal's if the request is let through and the binding is
the same, a refusal otherwise. Either way nothing is started. -/
theorem step_repeated (hserving : b.ended = false) (hwrite : env.write = none)
    (hrelay : env.relay = none)
    (hop : r.op.acts = true) (hsession : r.sessionID = some sid) (hs : b.sessions.get sid = some s)
    (hdec : codec.decodeAction r.payload = .ok a) (hentry : s.actions.get a.actionID = some entry) :
    ∃ response, (b.step codec (.request r,env)).out = Broker.bounded codec response :: b.out ∧
      (b.step codec (.request r,env)).record = b.record ∧
      (b.step codec (.request r,env)).pending = b.pending ∧
      (b.Admits r s a ∧ entry.1 = Use.binding codec ⟨sid,s.runID,s.epoch,a⟩ →
        response = { entry.2 with id := r.id }) ∧
      (¬ (b.Admits r s a ∧ entry.1 = Use.binding codec ⟨sid,s.runID,s.epoch,a⟩) →
        ∃ e, response = .failure r.id e) := by
  unfold Broker.step Broker.serveRequest
  rw [if_neg (by simp [hserving])]
  dsimp only
  by_cases hfull : maxRequests ≤ b.ids.length
  · rw [if_pos hfull,Broker.answer_written hwrite]
    exact ⟨_,rfl,rfl,rfl,fun h => absurd h.1.1 (by omega),fun _ => ⟨_,rfl⟩⟩
  · rw [if_neg hfull]
    by_cases hseen : r.id ∈ b.ids
    · rw [if_pos hseen,Broker.answer_written hwrite]
      exact ⟨_,rfl,rfl,rfl,fun h => absurd hseen h.1.2.1,fun _ => ⟨_,rfl⟩⟩
    · rw [if_neg hseen]
      have hcases := dispatch_repeated codec env { b with
        read := r.id :: b.read, ids := r.id :: b.ids } hop
        hsession hs hdec hentry
      have hidle : ∀ c : Broker, c.releaseIdleLease.out = c.out ∧
        c.releaseIdleLease.record = c.record ∧
          c.releaseIdleLease.pending = c.pending := by
        intro c
        obtain ⟨lease,hl⟩ := c.releaseIdleLease_eq
        rw [hl]
        exact ⟨rfl,rfl,rfl⟩
      cases hcases with
      | inl hlet =>
        obtain ⟨hn,hsize,hrun,hepoch,hp,hv,heq⟩ := hlet
        have hadmits : b.Admits r s a := ⟨Nat.lt_of_not_le hfull,hseen,hn,hsize,hrun,hepoch,hp,hv⟩
        rw [heq]
        unfold Dispatch.replay
        by_cases hb : entry.1 = Use.binding codec ⟨sid,s.runID,s.epoch,a⟩
        · rw [if_neg (not_not.mpr hb)]
          simp only [Broker.output,hrelay]
          refine ⟨_,(hidle _).1,(hidle _).2.1,(hidle _).2.2,fun _ => rfl,?_⟩
          exact fun h => absurd ⟨hadmits,hb⟩ h
        · rw [if_pos hb]
          dsimp only
          rw [Broker.answer_written hwrite]
          refine ⟨.failure r.id (err "action_id_conflict"
            "Action ID was already used with different inputs or context"),?_,(hidle _).2.1,
            (hidle _).2.2,
            fun h => absurd h.2 hb,fun _ => ⟨_,rfl⟩⟩
          dsimp only
          rw [(hidle _).1]
      | inr hrefused =>
        obtain ⟨hnot,e,heq⟩ := hrefused
        rw [heq]
        dsimp only
        rw [Broker.answer_written hwrite]
        refine ⟨.failure r.id e,?_,(hidle _).2.1,(hidle _).2.2,fun h => absurd h.1.2.2 hnot,
          fun _ => ⟨_,rfl⟩⟩
        dsimp only
        rw [(hidle _).1]

end Repeated

/-- Every action is started at most once and every request answered once. -/
structure StartsAndAnswersOnce (codec : Codec) (b : Broker) : Prop where
  /-- One worker at most for an action of a session. -/
  started : ∀ sid a, b.startsOf sid a ≤ 1
  /-- As many answers under an identity as requests were read with it, but for one a helper is at
  work for. -/
  answered : b.ended = false → ∀ x,
    (b.out.map Response.id).count x+(if (b.pending.get x).isSome then 1 else 0) = b.read.count x
  /-- An action of the journal is answered from it when the binding is the same, and refused
  otherwise. -/
  repeated : ∀ r env sid s a entry, b.ended = false → env.write = none → env.relay = none →
    r.op.acts = true →
    r.sessionID = some sid → b.sessions.get sid = some s → codec.decodeAction r.payload = .ok a →
    s.actions.get a.actionID = some entry →
    ∃ response, (b.step codec (.request r,env)).out = Broker.bounded codec response :: b.out ∧
      (b.step codec (.request r,env)).record = b.record ∧
      (b.step codec (.request r,env)).pending = b.pending ∧
      (b.Admits r s a ∧ entry.1 = Use.binding codec ⟨sid,s.runID,s.epoch,a⟩ →
        response = { entry.2 with id := r.id }) ∧
      (¬ (b.Admits r s a ∧ entry.1 = Use.binding codec ⟨sid,s.runID,s.epoch,a⟩) →
        ∃ e, response = .failure r.id e)

/-- As long as every pause and every detach reaps the helper it cancels, whatever the broker
serves. -/
theorem startsAndAnswersOnce_of_reaped (codec : Codec) (events : List (Event × Env))
    (h : Reaped codec events) :
    StartsAndAnswersOnce codec (run codec events) := by
  have hsound := run_sound codec events h
  refine ⟨hsound.once,hsound.balanced,?_⟩
  intro r env sid s a entry hserving hwrite hrelay hop hsession hs hdec hentry
  exact step_repeated hserving hwrite hrelay hop hsession hs hdec hentry

section Sample

/-- The selector of the sample node. -/
def samplePolicy : List Selector := [⟨none,some "OK",none,none,none⟩]

/-- A turn in which the helper cannot be terminated. -/
def stuckTurn (time : ℕ) : Env :=
  { calm time with terminate := some (err "helper_cancel" "Operation not permitted").uncertain }

/-- A read is started, a pause of it fails to terminate its helper, and the read is asked for
again. -/
def unreapedEvents : List (Event × Env) := sampleOpening ++
  [(.request (sampleRequest "r3" .act .null),calm 4),
   (.request (sampleRequest "r4" .pause .null),stuckTurn 5),
   (.request (sampleRequest "r5" .act .null),calm 6)]

/-- The broker goes on, the action has two workers, and the first request is neither pending nor
answered. -/
theorem unreaped_starts_twice :
    (run (sampleCodec samplePolicy .read) unreapedEvents).ended = false ∧
      (run (sampleCodec samplePolicy .read) unreapedEvents).startsOf "session-1-1" "a1" = 2 ∧
      ((run (sampleCodec samplePolicy .read) unreapedEvents).pending.get "r3").isSome = false ∧
      (run (sampleCodec samplePolicy .read) unreapedEvents).read.count "r3" = 1 ∧
      ((run (sampleCodec samplePolicy .read) unreapedEvents).out.map Response.id).count "r3" =
      0 := by
  decide +kernel

/-- A read is started, paused, and asked for again. -/
def reapedEvents : List (Event × Env) := sampleOpening ++
  [(.request (sampleRequest "r3" .act .null),calm 4),
   (.request (sampleRequest "r4" .pause .null),calm 5),
   (.request (sampleRequest "r5" .act .null),calm 6)]

theorem startsAndAnswersOnce_reapedEvents :
    (run (sampleCodec samplePolicy .read) reapedEvents).startsOf "session-1-1" "a1" = 1 ∧
      StartsAndAnswersOnce (sampleCodec samplePolicy .read)
      (run (sampleCodec samplePolicy .read) reapedEvents) := by
  refine ⟨by decide +kernel,startsAndAnswersOnce_of_reaped _ _ ?_⟩
  have hcalm : ∀ e ∈ reapedEvents, e.2.terminate = none ∧ e.2.relay = none := by decide
  intro past e rest heq
  have he := hcalm e (by rw [heq]; simp)
  obtain ⟨event,env⟩ := e
  cases event with
  | request r => exact fun _ _ _ _ => he
  | invalid failure => trivial
  | done id result => trivial
  | timeout id => trivial
  | eof => trivial

end Sample
end Manvi.Desktop
