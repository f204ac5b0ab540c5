import Manvi.Desktop.Approvals

/-! One start for an action and one answer for a request. The journal is written when a helper
finishes or is cancelled, not when it starts: until then the helper itself is what stands for the
action. -/
namespace Manvi.Desktop
open Manvi.Encoding

/-- A worker started for an action of a session. -/
def Record.starts (sid actionID : String) : Record → Bool
  | .started use _ _ => use.session = sid && use.action.actionID = actionID
  | _ => false

/-- A helper at work on an action of a session. -/
def Pending.WorksOn (codec : Codec) (sid actionID : String) (p : Pending) : Prop :=
  p.request.sessionID = some sid ∧ p.request.op.acts = true ∧ p.binding.isSome = true ∧
    ∃ a, codec.decodeAction p.request.payload = .ok a ∧ a.actionID = actionID

/-- The books of a broker that has used some identities and is taking in the result of a helper, if
any: every action it started for a session is in the session's journal or has its helper. -/
structure Tidy (codec : Codec) (ids : List String) (held : Option Pending) (b : Broker) : Prop where
  keys : ∀ {k p}, b.pending.get k = some p → p.request.id = k ∧ k ∈ ids
  waits : ∀ {sid s id}, b.sessions.get sid = some s → s.pending = some id → id ∈ ids
  owner : ∀ {sid s id p}, b.sessions.get sid = some s → s.pending = some id →
    b.pending.get id = some p →
    p.request.sessionID = some sid
  known : ∀ {sid s}, b.sessions.get sid = some s → ∃ t n, sid = identity "session" t n ∧
    n ≤ b.counter
  origin : ∀ {sid a e}, e ∈ b.record → e.starts sid a = true → ∃ t n, sid = identity "session" t n ∧
    n ≤ b.counter
  accounted : ∀ {sid a s e}, e ∈ b.record → e.starts sid a = true → b.sessions.get sid = some s →
    (s.actions.get a).isSome = true ∨
      ∃ p, ((∃ k, b.pending.get k = some p) ∨ held = some p) ∧ p.WorksOn codec sid a

/-- A session with at least the journal of another, waiting for the same helper or for none. -/
structure Session.Follows (s s' : Session) : Prop where
  actions : ∀ {a}, (s.actions.get a).isSome = true → (s'.actions.get a).isSome = true
  pending : s'.pending = s.pending ∨ s'.pending = none

section Tidy
variable {codec : Codec} {ids : List String} {held : Option Pending} {b b' : Broker} {sid : String}
    {s s' : Session}
  {operation : Pending} {response : Response}

lemma Session.Weaker.follows (h : s.Weaker s') : s.Follows s' := by
  refine ⟨?_,.inl h.pending⟩
  intro a ha
  rw [h.actions]
  exact ha

lemma Session.Follows.trans {t : Session} (h : s.Follows t) (h' : t.Follows s') : s.Follows s' := by
  refine ⟨fun ha => h'.actions (h.actions ha),?_⟩
  cases h'.pending with
  | inl heq =>
    rw [heq]
    exact h.pending
  | inr hnone => exact .inr hnone

lemma Session.follows_release (s : Session) : s.Follows { s with pending := none } := ⟨id,.inr rfl⟩

lemma Session.follows_journal (codec : Codec) (operation : Pending) (response : Response)
    (s : Session) :
    s.Follows (s.journal codec operation response) := by
  refine ⟨?_,.inl (Session.journal_pending codec operation response s)⟩
  intro a ha
  unfold Session.journal
  split
  · next binding action _ _ =>
    by_cases heq : a = action.actionID
    · rw [heq,Table.get_set_self]
      rfl
    · rw [Table.get_set_of_ne _ heq]
      exact ha
  · exact ha

/-- The journal has the action a helper worked on. -/
lemma Session.journal_works {actionID : String} (h : operation.WorksOn codec sid actionID)
    (response : Response)
    (s : Session) : ((s.journal codec operation response).actions.get actionID).isSome = true := by
  obtain ⟨_,_,hbinding,a,ha,rfl⟩ := h
  obtain ⟨binding,hb⟩ := Option.isSome_iff_exists.mp hbinding
  simp [Session.journal,hb,ha]

lemma Tidy.frame (h : Tidy codec ids held b) (hp : b'.pending = b.pending)
    (hs : b'.sessions = b.sessions)
    (hr : b'.record = b.record) (hc : b'.counter = b.counter) : Tidy codec ids held b' := by
  refine ⟨?_,?_,?_,?_,?_,?_⟩
  · rw [hp]
    exact h.keys
  · rw [hs]
    exact h.waits
  · rw [hp,hs]
    exact h.owner
  · rw [hs,hc]
    exact h.known
  · rw [hr,hc]
    exact h.origin
  · rw [hp,hs,hr]
    exact h.accounted

/-- Put a session that follows the one it replaces. -/
lemma Tidy.put (h : Tidy codec ids held b) (hs : b.sessions.get sid = some s) (hf : s.Follows s') :
    Tidy codec ids held (b.put sid s') := by
  have hold : ∀ {k t}, (b.put sid s').sessions.get k = some t → ∃ u, b.sessions.get k = some u ∧
    u.Follows t := by
    intro k t hk
    simp only [Broker.put,Table.get_set] at hk
    split_ifs at hk with heq
    · rw [← Option.some.inj hk,heq]
      exact ⟨s,hs,hf⟩
    · exact ⟨t,hk,id,.inl rfl⟩
  refine ⟨h.keys,?_,?_,?_,h.origin,?_⟩
  · intro k t id hk hid
    obtain ⟨u,hu,hfollows⟩ := hold hk
    cases hfollows.pending with
    | inl heq => exact h.waits hu (heq ▸ hid)
    | inr hnone =>
      rw [hnone] at hid
      cases hid
  · intro k t id p hk hid hp
    obtain ⟨u,hu,hfollows⟩ := hold hk
    cases hfollows.pending with
    | inl heq => exact h.owner hu (heq ▸ hid) hp
    | inr hnone =>
      rw [hnone] at hid
      cases hid
  · intro k t hk
    obtain ⟨u,hu,_⟩ := hold hk
    exact h.known hu
  · intro k a t e he hstarts hk
    obtain ⟨u,hu,hfollows⟩ := hold hk
    cases h.accounted he hstarts hu with
    | inl hjournal => exact .inl (hfollows.actions hjournal)
    | inr hworks => exact .inr hworks

lemma Tidy.count (h : Tidy codec ids held b) {n : ℕ} (hn : b.counter ≤ n) :
    Tidy codec ids held { b with counter := n } := by
  refine ⟨h.keys,h.waits,h.owner,?_,?_,h.accounted⟩
  · intro k t hk
    obtain ⟨u,m,hm,hle⟩ := h.known hk
    exact ⟨u,m,hm,by change m ≤ n; omega⟩
  · intro k a e he hstarts
    obtain ⟨u,m,hm,hle⟩ := h.origin he hstarts
    exact ⟨u,m,hm,by change m ≤ n; omega⟩

lemma Tidy.note (h : Tidy codec ids held b) {e : Record} (he : ∀ sid a, e.starts sid a = false) :
    Tidy codec ids held (b.note e) := by
  have hold : ∀ {d sid a}, d ∈ e :: b.record → d.starts sid a = true → d ∈ b.record := by
    intro d k a hd hstarts
    apply (List.mem_cons.mp hd).resolve_left
    rintro rfl
    rw [he] at hstarts
    cases hstarts
  exact ⟨h.keys,h.waits,h.owner,h.known,fun hd hstarts => h.origin (hold hd hstarts) hstarts,
    fun hd hstarts => h.accounted (hold hd hstarts) hstarts⟩

lemma Tidy.widen (h : Tidy codec ids held b) (id : String) : Tidy codec (id :: ids) held b := by
  refine ⟨?_,?_,h.owner,h.known,h.origin,h.accounted⟩
  · intro k p hp
    obtain ⟨hid,hmem⟩ := h.keys hp
    exact ⟨hid,List.mem_cons_of_mem _ hmem⟩
  · intro k t i hk hi
    exact List.mem_cons_of_mem _ (h.waits hk hi)

/-- Enter a helper under an identity that was not used before. -/
lemma Tidy.enter {r : Request} (h : Tidy codec ids held b) (binding : Option String)
    (hnew : r.id ∉ ids) :
    Tidy codec (r.id :: ids) held { b with pending := b.pending.set r.id ⟨r,binding⟩ } := by
  refine ⟨?_,(h.widen r.id).waits,?_,h.known,h.origin,?_⟩
  · intro k p hp
    rw [Table.get_set] at hp
    split_ifs at hp with heq
    · rw [← Option.some.inj hp,heq]
      exact ⟨rfl,List.mem_cons_self⟩
    · exact (h.widen r.id).keys hp
  · intro k t id p hk hid hp
    have hne : id ≠ r.id := fun heq => hnew (heq ▸ h.waits hk hid)
    rw [Table.get_set_of_ne _ hne] at hp
    exact h.owner hk hid hp
  · intro k a t e he hstarts hk
    cases h.accounted he hstarts hk with
    | inl hjournal => exact .inl hjournal
    | inr hworks =>
      obtain ⟨p,hp,hw⟩ := hworks
      refine .inr ⟨p,?_,hw⟩
      cases hp with
      | inl hget =>
        obtain ⟨i,hi⟩ := hget
        have hne : i ≠ r.id := fun heq => hnew (heq ▸ (h.keys hi).2)
        exact .inl ⟨i,by rw [Table.get_set_of_ne _ hne,hi]⟩
      | inr hheld => exact .inr hheld

/-- A session starts to wait for the helper that was entered for it. -/
lemma Tidy.await {id : String} {p : Pending} (h : Tidy codec ids held b)
    (hs : b.sessions.get sid = some s)
    (hf : s.Follows s') (hp : b.pending.get id = some p) (ho : p.request.sessionID = some sid) :
    Tidy codec ids held (b.put sid { s' with pending := some id }) := by
  have hput := h.put hs (hf.trans s'.follows_release)
  have hsame : ∀ {k t}, (b.put sid { s' with pending := some id }).sessions.get k = some t →
    k ≠ sid →
      (b.put sid { s' with pending := none }).sessions.get k = some t := by
    intro k t hk hne
    simp only [Broker.put,Table.get_set_of_ne _ hne] at hk ⊢
    exact hk
  have hself : ∀ {t}, (b.put sid { s' with pending := some id }).sessions.get sid = some t →
      { s' with pending := some id } = t := by
    intro t ht
    simp only [Broker.put,Table.get_set_self,Option.some.injEq] at ht
    exact ht
  refine ⟨h.keys,?_,?_,?_,h.origin,?_⟩
  · intro k t i hk hi
    by_cases hsid : k = sid
    · subst hsid
      rw [← hself hk] at hi
      rw [← Option.some.inj hi]
      exact (h.keys hp).2
    · exact hput.waits (hsame hk hsid) hi
  · intro k t i q hk hi hq
    by_cases hsid : k = sid
    · subst hsid
      rw [← hself hk] at hi
      have hget : b.pending.get id = some q := (Option.some.inj hi) ▸ hq
      rw [hp] at hget
      rw [← Option.some.inj hget]
      exact ho
    · exact hput.owner (hsame hk hsid) hi hq
  · intro k t hk
    by_cases hsid : k = sid
    · rw [hsid]
      exact h.known hs
    · exact hput.known (hsame hk hsid)
  · intro k a t e he hstarts hk
    by_cases hsid : k = sid
    · subst hsid
      have haccounted := hput.accounted he hstarts (Table.get_set_self _ _ _)
      rw [← hself hk]
      exact haccounted
    · exact hput.accounted he hstarts (hsame hk hsid)

/-- Take a helper's result in: it stands for its action until the journal does. -/
lemma Tidy.take {id : String} (h : Tidy codec ids none b) (hp : b.pending.get id = some operation) :
    Tidy codec ids (some operation) { b with pending := b.pending.erase id } := by
  have hold : ∀ {k p}, (b.pending.erase id).get k = some p → b.pending.get k = some p := by
    intro k p hk
    rw [Table.get_erase] at hk
    split_ifs at hk with heq
    exact hk
  refine ⟨fun hk => h.keys (hold hk),h.waits,fun hs hi hk => h.owner hs hi (hold hk),h.known,
    h.origin,?_⟩
  intro k a t e he hstarts hk
  cases h.accounted he hstarts hk with
  | inl hjournal => exact .inl hjournal
  | inr hworks =>
    obtain ⟨p,hget,hw⟩ := hworks
    refine .inr ⟨p,?_,hw⟩
    cases hget with
    | inl hget =>
      obtain ⟨i,hi⟩ := hget
      by_cases heq : i = id
      · rw [heq,hp] at hi
        exact .inr hi
      · exact .inl ⟨i,by rw [Table.get_erase_of_ne _ heq,hi]⟩
    | inr hnone => cases hnone

/-- Let go of a helper whose action is in the journal, or whose session is gone. -/
lemma Tidy.drop (h : Tidy codec ids (some operation) b)
    (hd : ∀ {sid a s}, operation.WorksOn codec sid a → b.sessions.get sid = some s →
      (s.actions.get a).isSome = true) : Tidy codec ids none b := by
  refine ⟨h.keys,h.waits,h.owner,h.known,h.origin,?_⟩
  intro k a t e he hstarts hk
  cases h.accounted he hstarts hk with
  | inl hjournal => exact .inl hjournal
  | inr hworks =>
    obtain ⟨p,hget,hw⟩ := hworks
    cases hget with
    | inl hget => exact .inr ⟨p,.inl hget,hw⟩
    | inr heq =>
      rw [← Option.some.inj heq] at hw
      exact .inl (hd hw hk)

lemma Tidy.eraseSession (h : Tidy codec ids held b) :
    Tidy codec ids held { b with sessions := b.sessions.erase sid } := by
  have hold : ∀ {k t}, (b.sessions.erase sid).get k = some t → b.sessions.get k = some t := by
    intro k t hk
    rw [Table.get_erase] at hk
    split_ifs at hk with heq
    exact hk
  exact ⟨h.keys,fun hk => h.waits (hold hk),fun hk => h.owner (hold hk),fun hk => h.known (hold hk),
    h.origin,
    fun he hstarts hk => h.accounted he hstarts (hold hk)⟩

/-- A new session has an identity that nothing was started under. -/
lemma Tidy.attach {t : ℕ} (h : Tidy codec ids held b) (hp : s.pending = none) :
    Tidy codec ids held
      { b.put (identity "session" t (b.counter+1)) s with counter := b.counter+1 } := by
  have hcases : ∀ {k u}, (b.sessions.set (identity "session" t (b.counter+1)) s).get k = some u →
      k = identity "session" t (b.counter+1) ∧ s = u ∨ b.sessions.get k = some u := by
    intro k u hk
    rw [Table.get_set] at hk
    split_ifs at hk with heq
    · exact .inl ⟨heq,Option.some.inj hk⟩
    · exact .inr hk
  refine ⟨h.keys,?_,?_,?_,?_,?_⟩
  · intro k u id hk hid
    cases hcases hk with
    | inl hnew =>
      rw [← hnew.2,hp] at hid
      cases hid
    | inr hold => exact h.waits hold hid
  · intro k u id p hk hid hq
    cases hcases hk with
    | inl hnew =>
      rw [← hnew.2,hp] at hid
      cases hid
    | inr hold => exact h.owner hold hid hq
  · intro k u hk
    cases hcases hk with
    | inl hnew => exact ⟨t,b.counter+1,hnew.1,le_rfl⟩
    | inr hold => exact (h.count (Nat.le_succ b.counter)).known hold
  · exact (h.count (Nat.le_succ b.counter)).origin
  · intro k a u e he hstarts hk
    cases hcases hk with
    | inl hnew =>
      obtain ⟨t',n,hn,hle⟩ := h.origin he hstarts
      have hsame := identity_inj (hnew.1.symm.trans hn)
      omega
    | inr hold => exact h.accounted he hstarts hold

end Tidy

section Steps
variable {codec : Codec} {env : Env} {ids : List String} {held : Option Pending} {b b' : Broker}
    {r : Request}
  {sid : String} {s s' : Session} {operation : Pending} {response : Response}

/-- The helper a pause or a detach would cancel. -/
def Broker.cancels (b : Broker) (r : Request) : Option Pending :=
  if r.Named ∧ r.op.interrupts = true then
    match context b r with
    | .ok (_,s) => s.pending.bind b.pending.get
    | .error _ => none
  else none

lemma Broker.cancels_eq {id : String} (hn : r.Named) (hc : context b r = .ok (sid,s))
    (hop : r.op.interrupts = true)
    (hs : s.pending = some id) (hp : b.pending.get id = some operation) :
    b.cancels r = some operation := by
  simp [Broker.cancels,hn,hc,hop,hs,hp]

lemma Interrupted.tidy (hi : Interrupted codec b sid s b' s') (hs : b.sessions.get sid = some s)
    (h : Tidy codec ids none b) :
    Tidy codec ids none b' ∧ ∃ t, b'.sessions.get sid = some t ∧ t.Follows s' := by
  cases hi with
  | idle hnone => exact ⟨h,s,hs,s.follows_release⟩
  | @cancelled id operation hp ho =>
    have hfollows : s.Follows ({ s with pending := none }.journal codec operation
      (Dispatch.cancelled operation)) :=
      s.follows_release.trans (Session.follows_journal codec operation _ _)
    have hput := (h.take ho).put hs hfollows
    have hdrop : Tidy codec ids none ({ b with pending := b.pending.erase id }.put sid
        ({ s with pending := none }.journal codec operation (Dispatch.cancelled operation))) := by
      apply hput.drop
      intro k a t hw hk
      have hown := h.owner hs hp ho
      rw [hw.1] at hown
      have hsid : k = sid := Option.some.inj hown
      rw [hsid] at hk hw
      simp only [Broker.put,Table.get_set_self,Option.some.injEq] at hk
      rw [← hk]
      exact Session.journal_works hw _ _
    exact ⟨hdrop.frame rfl rfl rfl rfl,_,Table.get_set_self _ _ _,fun ha => ha,.inl rfl⟩

/-- Dispatching a request under a new identity keeps the books, as long as a helper it cancels is
reaped. -/
lemma Dispatched.tidy {ans : Answer} (hd : Dispatched codec env r b ans b')
    (h : Tidy codec ids none b)
    (hnew : r.id ∉ ids)
    (hreaped : (b.cancels r).isSome = true → env.terminate = none ∧ env.relay = none) :
    Tidy codec (r.id :: ids) none b' := by
  have hwide := h.widen r.id
  cases hd with
  | answered hans => exact hwide.frame rfl rfl rfl rfl
  | alone hop => exact (h.enter none hnew).frame rfl rfl rfl rfl
  | weakened hc hw => exact hwide.put (context_ok hc).2.1 hw.follows
  | helped hc hw hop hes =>
    obtain ⟨hsession,hs,_⟩ := context_ok hc
    have hawait := (h.enter none hnew).await hs hw.follows (Table.get_set_self _ _ _) hsession
    cases hes with
    | inl he =>
      subst he
      exact hawait
    | inr he =>
      obtain ⟨rfl,_⟩ := he
      exact hawait.note (fun _ _ => rfl)
  | @performed sid s s' use aim w hc hop hdec hvalid hsid hrun hepoch hfresh hfree hcarries hw
    htaken =>
    obtain ⟨hsession,hs,_⟩ := context_ok hc
    have hawait := (h.enter (some (use.binding codec)) hnew).await hs hw.follows
      (Table.get_set_self _ _ _) hsession
    refine ⟨hawait.keys,hawait.waits,hawait.owner,hawait.known,?_,?_⟩
    · intro k a e he hstarts
      cases List.mem_cons.mp he with
      | inl heq =>
        subst heq
        simp only [Record.starts,Bool.and_eq_true,decide_eq_true_eq] at hstarts
        rw [← hstarts.1,hsid]
        exact h.known hs
      | inr hold => exact hawait.origin hold hstarts
    · intro k a t e he hstarts hk
      cases List.mem_cons.mp he with
      | inl heq =>
        subst heq
        simp only [Record.starts,Bool.and_eq_true,decide_eq_true_eq] at hstarts
        refine .inr ⟨⟨r,some (use.binding codec)⟩,.inl ⟨r.id,Table.get_set_self _ _ _⟩,?_,hop,rfl,
          use.action,hdec,hstarts.2⟩
        rw [← hstarts.1,hsid]
        exact hsession
      | inr hold => exact hawait.accounted hold hstarts hk
  | @approved sid s use v hc hvalid hsession =>
    have hgrant : s.Follows (s.grant (identity "approval" env.stamp (b.counter+1))
      (use.binding codec)) :=
      ⟨id,.inl rfl⟩
    have hput := (hwide.put (context_ok hc).2.1 hgrant).count (Nat.le_succ _)
    exact hput.note (fun _ _ => rfl)
  | resumed hc hw hempty => exact (hwide.put (context_ok hc).2.1 hw.follows).note (fun _ _ => rfl)
  | replayed hc hentry => exact hwide.frame rfl rfl rfl rfl
  | stuck hn hc hop hs hp hfail =>
    have hnone := (hreaped (by rw [Broker.cancels_eq hn hc hop hs hp]; rfl)).1
    rw [hfail] at hnone
    cases hnone
  | lost hn hc hop hs hp hfail =>
    have hnone := (hreaped (by rw [Broker.cancels_eq hn hc hop hs hp]; rfl)).2
    rw [hfail] at hnone
    cases hnone
  | exhausted hc hi =>
    obtain ⟨htidy,t,ht,hfollows⟩ := hi.tidy (context_ok hc).2.1 hwide
    exact htidy.put ht hfollows
  | @transferred sid s s' b' v sessions hc hi ht =>
    obtain ⟨htidy,t,hget,hfollows⟩ := hi.tidy (context_ok hc).2.1 hwide
    have hover : s'.Follows s'.handedOver := ⟨id,.inl rfl⟩
    have hput := htidy.put hget (hfollows.trans hover)
    cases ht with
    | inl heq =>
      subst heq
      exact hput.note (fun _ _ => rfl)
    | inr heq =>
      subst heq
      exact (hput.note (fun _ _ => rfl)).eraseSession

lemma Settled.tidy {result : Except DesktopError Json} (hd : Settled env r b result b')
    (h : Tidy codec ids held b) : Tidy codec ids held b' := by
  cases hd with
  | kept hn => exact h.count hn
  | attached hop hs => exact h.attach hs.2.2
  | changed hop hs hw hn => exact (h.put hs hw.follows).count hn
  | observed hop hs hw hempty hn => exact ((h.put hs hw.follows).note (fun _ _ => rfl)).count hn

lemma Concluded.tidy (hd : Concluded codec operation response b b')
    (h : Tidy codec ids (some operation) b) :
    Tidy codec ids none b' := by
  cases hd with
  | gone hnone =>
    apply h.drop
    intro k a t hw hk
    rw [hnone k hw.1] at hk
    cases hk
  | @rested sid s s' hid hs hop hw =>
    apply (h.put hs (s.follows_release.trans hw.follows)).drop
    intro k a t hworks _
    have hacts := hworks.2.1
    rw [hop] at hacts
    cases hacts
  | @finished sid s s' hid hs hop hw hempty =>
    have hfollows := (s.follows_release.trans hw.follows).trans
      (Session.follows_journal codec operation response s')
    apply ((h.put hs hfollows).drop _).note (fun _ _ => rfl)
    intro k a t hworks hk
    have hsid := hworks.1
    rw [hid] at hsid
    rw [← Option.some.inj hsid] at hk hworks
    simp only [Broker.put,Table.get_set_self,Option.some.injEq] at hk
    rw [← hk]
    exact Session.journal_works hworks _ _

end Steps
end Manvi.Desktop
