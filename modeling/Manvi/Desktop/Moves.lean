import Manvi.Desktop.Binding

/-! What one turn of the broker's loop can do: every way a request is dispatched, and every way a
helper's result is taken in. -/
namespace Manvi.Desktop
open Manvi.Encoding

section Parts
variable {codec : Codec} {env : Env} {b b' : Broker} {r : Request} {w : Worker}
    {binding : Option String}

lemma Broker.launch_ok (h : b.launch env r w binding = .ok b') :
    b' = { b with pending := b.pending.set r.id ⟨r,binding⟩ } ∧
    (w.op ≠ .probe → b.lease = true) := by
  unfold Broker.launch at h
  cases hx : env.exe with
  | some e =>
    rw [hx] at h
    cases h
  | none =>
    rw [hx] at h
    dsimp only at h
    by_cases hl : w.op ≠ .probe ∧ b.lease = false
    · rw [if_pos hl] at h
      cases h
    · rw [if_neg hl] at h
      cases hs : env.spawn with
      | some e =>
        rw [hs] at h
        cases h
      | none =>
        rw [hs] at h
        injection h with h
        refine ⟨h.symm,?_⟩
        intro hw
        by_contra hlease
        exact hl ⟨hw,by simpa using hlease⟩

lemma Broker.answer_ended {response : Response} {e : DesktopError} (h : env.write = some e) :
    b.answer codec env response = { b with ended := true } := by
  simp only [Broker.answer,Broker.output,h]

lemma Broker.answer_written {response : Response} (h : env.write = none) :
    b.answer codec env response = { b with out := bounded codec response :: b.out } := by
  simp only [Broker.answer,Broker.output,h]

lemma Broker.releaseIdleLease_eq (b : Broker) :
    ∃ lease, b.releaseIdleLease = { b with lease := lease } := by
  unfold Broker.releaseIdleLease
  split_ifs with h
  · exact ⟨false,rfl⟩
  · exact ⟨b.lease,rfl⟩

lemma bounded_id (codec : Codec) (response : Response) :
    (Broker.bounded codec response).id = response.id := by
  unfold Broker.bounded
  split_ifs with h
  · rfl
  · rfl

lemma context_ok {sid : String} {s : Session} (h : context b r = .ok (sid,s)) :
    r.sessionID = some sid ∧ b.sessions.get sid = some s ∧ r.runID = some s.runID ∧
    r.epoch = some s.epoch := by
  unfold context at h
  cases hid : r.sessionID with
  | none =>
    rw [hid] at h
    cases h
  | some id =>
    rw [hid] at h
    dsimp only at h
    cases hs : b.sessions.get id with
    | none =>
      rw [hs] at h
      cases h
    | some t =>
      rw [hs] at h
      dsimp only at h
      split_ifs at h with hrun hepoch
      injection h with h
      obtain ⟨rfl,rfl⟩ := Prod.mk.inj h
      exact ⟨rfl,hs,not_not.mp hrun,not_not.mp hepoch⟩

end Parts

/-- A session that allows no more than another and has the same journal and helper. -/
structure Session.Weaker (s s' : Session) : Prop where
  approvals : ∀ {x bound}, s'.approvals.get x = some bound → s.approvals.get x = some bound
  actions : s'.actions = s.actions
  pending : s'.pending = s.pending

lemma Session.Weaker.refl (s : Session) : s.Weaker s := ⟨id,rfl,rfl⟩

lemma Session.Weaker.trans {s t u : Session} (h : s.Weaker t) (h' : t.Weaker u) : s.Weaker u :=
  ⟨fun hx => h.approvals (h'.approvals hx),h'.actions.trans h.actions,h'.pending.trans h.pending⟩

lemma Session.weaker_clear (s : Session) : s.Weaker s.clear := ⟨fun h => (by cases h),rfl,rfl⟩

lemma Session.weaker_suspend (response : Response) (s : Session) :
    s.Weaker (s.suspendExternalInteraction response) := by
  unfold Session.suspendExternalInteraction
  split_ifs with h
  · exact ⟨fun h => (by cases h),rfl,rfl⟩
  · exact .refl s

lemma Session.journal_approvals (codec : Codec) (operation : Pending) (response : Response)
    (s : Session) :
    (s.journal codec operation response).approvals = s.approvals := by
  unfold Session.journal
  split
  · rfl
  · rfl

lemma Session.journal_pending (codec : Codec) (operation : Pending) (response : Response)
    (s : Session) :
    (s.journal codec operation response).pending = s.pending := by
  unfold Session.journal
  split
  · rfl
  · rfl

lemma Dispatch.takeApproval_weaker (s : Session) (id : Option String) :
    s.Weaker (Dispatch.takeApproval s id).2 := by
  cases id with
  | none => exact .refl s
  | some x =>
    refine ⟨?_,rfl,rfl⟩
    intro y bound hy
    simp only [Dispatch.takeApproval,Table.get_erase] at hy
    split_ifs at hy with hxy
    exact hy

/-- The session and the broker once a pause or a detach has dealt with the session's helper. -/
inductive Interrupted (codec : Codec) (b : Broker) (sid : String) (s : Session) :
    Broker → Session → Prop
  | idle (h : ∀ id ∈ s.pending, b.pending.get id = none) :
      Interrupted codec b sid s b { s with pending := none }
  | cancelled {id : String} {operation : Pending} (hs : s.pending = some id)
      (hp : b.pending.get id = some operation) :
      Interrupted codec b sid s
        { { b with pending := b.pending.erase id }.put sid
            ({ s with pending := none }.journal codec operation (Dispatch.cancelled operation)) with
          out := Broker.bounded codec (Dispatch.cancelled operation) :: b.out }
        ({ s with pending := none }.journal codec operation (Dispatch.cancelled operation))

/-- The session a pause leaves. -/
def Session.handedOver (s : Session) : Session :=
  { s.clear with epoch := s.epoch+1, paused := true }

/-- A request whose identity is nonempty and bounded. -/
def Request.Named (r : Request) : Prop := ¬ (r.id = "" ∨ 160 < r.id.utf8ByteSize)

instance (r : Request) : Decidable r.Named := inferInstanceAs (Decidable (¬ _))

/-- A worker that was told the action of a use and the target and tree of an aim. -/
def Worker.Carries (w : Worker) (use : Use) (aim : Aim) : Prop :=
  w.action = some use.action ∧ w.target = some aim.target ∧ w.expectedNodes = some aim.nodes

/-- A session with one more approval. -/
def Session.grant (s : Session) (id binding : String) : Session :=
  { s with approvals := s.approvals.set id binding }

/-- Every way a request is dispatched. -/
inductive Dispatched (codec : Codec) (env : Env) (r : Request) (b : Broker) : Answer → Broker → Prop
  | answered {ans : Answer} {l : Bool} (h : ans ≠ .ok none) :
      Dispatched codec env r b ans { b with lease := l }
  | alone {l : Bool} (h : r.op = .probe ∨ r.op = .attach) :
      Dispatched codec env r b (.ok none) { b with
        lease := l, pending := b.pending.set r.id ⟨r,none⟩ }
  | weakened {sid : String} {s s' : Session} {e : DesktopError} (hc : context b r = .ok (sid,s))
      (hw : s.Weaker s') : Dispatched codec env r b (.error e) (b.put sid s')
  | helped {sid : String} {s s' : Session} {es : List Record} (hc : context b r = .ok (sid,s))
      (hw : s.Weaker s') (hop : r.op.acts = false)
      (hes : es = [] ∨ es = [.focused sid] ∧ s'.approvals = .empty) :
      Dispatched codec env r b (.ok none)
        { b with pending := b.pending.set r.id ⟨r,none⟩,
                 sessions := b.sessions.set sid { s' with pending := some r.id }, record :=
                   es ++ b.record }
  | performed {sid : String} {s s' : Session} {use : Use} {aim : Aim} {w : Worker}
      (hc : context b r = .ok (sid,s)) (hop : r.op.acts = true)
      (hdec : codec.decodeAction r.payload = .ok use.action) (hvalid : use.action.validate = .ok ())
      (hsession : use.session = sid) (hrun : use.run = s.runID) (hepoch : use.epoch = s.epoch)
      (hfresh : s.actions.get use.action.actionID = none) (hfree : b.inputOwned = false)
      (hcarries : w.Carries use aim) (hw : s.Weaker s')
      (htaken : needsApproval codec aim use.action.effect = true →
        ∃ x, use.action.approvalID = some x ∧ s.approvals.get x = some (use.binding codec) ∧
          s'.approvals.get x = none) :
      Dispatched codec env r b (.ok none)
        { b with pending := b.pending.set r.id ⟨r,some (use.binding codec)⟩,
                 sessions := b.sessions.set sid { s' with pending := some r.id },
                 record := .started use aim w :: b.record }
  | approved {sid : String} {s : Session} {use : Use} {v : Json} (hc : context b r = .ok (sid,s))
      (hvalid : use.action.validate = .ok ()) (hsession : use.session = sid) :
      Dispatched codec env r b (.ok (some v))
        { b with counter := b.counter+1,
                 record := .approved (identity "approval" env.stamp (b.counter+1)) use :: b.record,
                 sessions := b.sessions.set sid
                  (s.grant (identity "approval" env.stamp (b.counter+1)) (use.binding codec)) }
  | resumed {sid : String} {s s' : Session} {v : Json} (hc : context b r = .ok (sid,s))
      (hw : s.Weaker s')
      (hempty : s'.approvals = .empty) :
      Dispatched codec env r b (.ok (some v)) ((b.put sid s').note (.resumed sid))
  | replayed {sid : String} {s : Session} {a : Action} {entry : String × Response}
      (hc : context b r = .ok (sid,s)) (hentry : s.actions.get a.actionID = some entry) :
      Dispatched codec env r b (.ok none)
        { b with out := Broker.bounded codec { entry.2 with id := r.id } :: b.out }
  | stuck {sid id : String} {s : Session} {operation : Pending} {e : DesktopError}
      (hn : r.Named) (hc : context b r = .ok (sid,s)) (hop : r.op.interrupts = true)
      (hs : s.pending = some id)
      (hp : b.pending.get id = some operation) (hfail : env.terminate = some e) :
      Dispatched codec env r b (.error e)
        ({ b with pending := b.pending.erase id }.put sid { s with pending := none })
  | lost {sid id : String} {s : Session} {operation : Pending} {e : DesktopError}
      (hn : r.Named) (hc : context b r = .ok (sid,s)) (hop : r.op.interrupts = true)
      (hs : s.pending = some id)
      (hp : b.pending.get id = some operation) (hfail : env.relay = some e) :
      Dispatched codec env r b (.error e)
        ({ b with pending := b.pending.erase id }.put sid
          ({ s with pending := none }.journal codec operation (Dispatch.cancelled operation)))
  | exhausted {sid : String} {s s' : Session} {b' : Broker} {e : DesktopError}
      (hc : context b r = .ok (sid,s)) (hi : Interrupted codec b sid s b' s') :
      Dispatched codec env r b (.error e) (b'.put sid s')
  | transferred {sid : String} {s s' : Session} {b' : Broker} {v : Json} {t : Table String Session}
      (hc : context b r = .ok (sid,s)) (hi : Interrupted codec b sid s b' s')
      (ht : t = b'.sessions.set sid s'.handedOver ∨
        t = (b'.sessions.set sid s'.handedOver).erase sid) :
      Dispatched codec env r b (.ok (some v)) { b' with
        sessions := t, record := .paused sid :: b'.record }

section Dispatch
variable {codec : Codec} {env : Env} {b : Broker} {r : Request} {sid : String} {s : Session}

lemma Dispatched.refused (e : DesktopError) : Dispatched codec env r b (.error e) b :=
  .answered (l := b.lease) (by simp)

lemma Dispatched.told (v : Json) : Dispatched codec env r b (.ok (some v)) b :=
  .answered (l := b.lease) (by simp)

lemma Dispatch.probe_cases (hop : r.op = .probe) :
    Dispatched codec env r b (Dispatch.probe env r b).1 (Dispatch.probe env r b).2 := by
  unfold Dispatch.probe
  cases h : b.launch env r (makeWorker .probe) none with
  | error e => exact .refused e
  | ok b' =>
    rw [(Broker.launch_ok h).1]
    exact .alone (l := b.lease) (.inl hop)

lemma Dispatch.attach_cases (hop : r.op = .attach) :
    Dispatched codec env r b (Dispatch.attach codec env r b).1
    (Dispatch.attach codec env r b).2 := by
  unfold Dispatch.attach
  cases ha : Dispatch.admitAttach codec r b with
  | error e => exact .refused e
  | ok a =>
    have hlease : ∀ {b' : Broker}, Dispatch.takeLease env b = .ok b' → ∃ lease,
      b' = { b with lease := lease } := by
      intro b' h
      unfold Dispatch.takeLease at h
      split_ifs at h with hl
      · injection h with h
        exact ⟨b.lease,h.symm⟩
      · split at h
        · cases h
        · injection h with h
          exact ⟨true,h.symm⟩
    dsimp only
    cases hl : Dispatch.takeLease env b with
    | error e => exact .refused e
    | ok b' =>
      obtain ⟨lease,rfl⟩ := hlease hl
      dsimp only
      cases h : Broker.launch env r { makeWorker .attach with attach := some a } none { b with
        lease := lease } with
      | error e => exact .answered (by simp)
      | ok b' =>
        rw [(Broker.launch_ok h).1]
        exact .alone (.inr hop)

lemma Dispatch.launchFor_cases {w : Worker} {s' : Session} {es : List Record}
    (hc : context b r = .ok (sid,s))
    (hw : s.Weaker s') (hop : r.op.acts = false)
    (hes : es = [] ∨ es = [.focused sid] ∧ s'.approvals = .empty)
    {b' : Broker} (hb : b' = b ∨ b' = b.put sid s') :
    Dispatched codec env r b (launchFor env r sid s' w none es b').1
    (launchFor env r sid s' w none es b').2 := by
  unfold launchFor
  cases h : b'.launch env r w none with
  | error e =>
    rcases hb with rfl | rfl
    · exact .refused e
    · exact .weakened hc hw
  | ok b'' =>
    rw [(Broker.launch_ok h).1]
    rcases hb with rfl | rfl
    · exact .helped hc hw hop hes
    · simp only [Broker.put,Table.set_set]
      exact .helped hc hw hop hes

lemma Dispatch.focus_cases (hc : context b r = .ok (sid,s)) (hop : r.op.acts = false) :
    Dispatched codec env r b (Dispatch.focus env r sid s b).1 (Dispatch.focus env r sid s b).2 := by
  unfold Dispatch.focus
  by_cases ho : b.inputOwned = true
  · rw [if_pos ho]
    exact .refused _
  · rw [if_neg ho]
    exact Dispatch.launchFor_cases hc s.weaker_clear hop (.inr ⟨rfl,rfl⟩) (.inr rfl)

lemma Dispatch.resolve_cases (hc : context b r = .ok (sid,s)) (hop : r.op.acts = false) :
    Dispatched codec env r b (Dispatch.resolve codec env r sid s b).1
    (Dispatch.resolve codec env r sid s b).2 := by
  unfold Dispatch.resolve
  split
  · exact .refused _
  · exact Dispatch.launchFor_cases hc (.refl s) hop (.inl rfl) (.inl rfl)
  · split_ifs with ht
    · exact .told _
    · exact .told _

lemma Dispatch.resume_cases (hc : context b r = .ok (sid,s)) :
    Dispatched codec env r b (Dispatch.resume codec env r sid s b).1
    (Dispatch.resume codec env r sid s b).2 := by
  unfold Dispatch.resume
  split
  · exact .refused _
  · split
    · exact .refused _
    · by_cases hp : (!s.paused) = true
      · rw [if_pos hp]
        exact .refused _
      · rw [if_neg hp]
        by_cases he : s.epoch+1 < 2^64
        · rw [if_pos he]
          exact .resumed hc ⟨fun h => (by cases h),rfl,rfl⟩ rfl
        · rw [if_neg he]
          exact .weakened hc ⟨id,rfl,rfl⟩

lemma Dispatch.transfer_cases (hc : context b r = .ok (sid,s)) {s' : Session} {b' : Broker}
    {uncertain : Bool}
    (hi : Interrupted codec b sid s b' s') :
    Dispatched codec env r b (Dispatch.transfer r sid s' uncertain b').1
      (Dispatch.transfer r sid s' uncertain b').2 := by
  unfold Dispatch.transfer
  by_cases he : s'.epoch+1 < 2^64
  · rw [if_pos he]
    by_cases hd : r.op = .detach
    · simp only [hd,if_true]
      change Dispatched codec env r b (.ok (some _)) { b' with
        sessions := (b'.sessions.set sid s'.handedOver).erase sid, record :=
          .paused sid :: b'.record }
      exact .transferred hc hi (.inr rfl)
    · simp only [hd,if_false]
      change Dispatched codec env r b (.ok (some _)) { b' with
        sessions := b'.sessions.set sid s'.handedOver, record := .paused sid :: b'.record }
      exact .transferred hc hi (.inl rfl)
  · rw [if_neg he]
    exact .exhausted hc hi

lemma Dispatch.interrupt_cases (hn : r.Named) (hc : context b r = .ok (sid,s))
    (hop : r.op.interrupts = true) :
    Dispatched codec env r b (Dispatch.interrupt codec env r sid s b).1
      (Dispatch.interrupt codec env r sid s b).2 := by
  unfold Dispatch.interrupt
  cases hs : s.pending with
  | none =>
    have hsame : s = { s with pending := none } := by
      rw [← hs]
    have hidle : Interrupted codec b sid s b s := by
      have h : Interrupted codec b sid s b { s with pending := none } := .idle (by simp [hs])
      rwa [← hsame] at h
    exact Dispatch.transfer_cases hc hidle
  | some id =>
    dsimp only
    cases hp : b.pending.get id with
    | none =>
      apply Dispatch.transfer_cases hc
      apply Interrupted.idle
      intro k hk
      rw [hs] at hk
      rw [← Option.some.inj hk,hp]
    | some operation =>
      dsimp only
      cases ht : env.terminate with
      | some e => exact .stuck hn hc hop hs hp ht
      | none =>
        dsimp only [Broker.output]
        cases hw : env.relay with
        | some e => exact .lost hn hc hop hs hp hw
        | none => exact Dispatch.transfer_cases hc (.cancelled hs hp)

lemma Dispatch.perform_cases {use : Use} {aim : Aim} {w : Worker} (hc : context b r = .ok (sid,s))
    (hop : r.op.acts = true) (hdec : codec.decodeAction r.payload = .ok use.action)
    (hvalid : use.action.validate = .ok ()) (hsession : use.session = sid)
    (hrun : use.run = s.runID)
    (hepoch : use.epoch = s.epoch) (hfresh : s.actions.get use.action.actionID = none)
    (hcarries : w.Carries use aim) :
    Dispatched codec env r b (Dispatch.perform codec env r sid s use aim w b).1
      (Dispatch.perform codec env r sid s use aim w b).2 := by
  unfold Dispatch.perform
  by_cases ho : b.inputOwned = true
  · rw [if_pos ho]
    exact .refused _
  · rw [if_neg ho]
    dsimp only
    generalize htaken : (if needsApproval codec aim use.action.effect = true then
      Dispatch.takeApproval s use.action.approvalID else (some (use.binding codec),s)) = taken
    have hw : s.Weaker taken.2 := by
      rw [← htaken]
      split_ifs with hn
      · exact Dispatch.takeApproval_weaker s _
      · exact .refl s
    by_cases hspent : taken.1 ≠ some (use.binding codec)
    · rw [if_pos hspent]
      exact .weakened hc hw
    · rw [if_neg hspent]
      by_cases hfull : maxActions ≤ s.actions.size
      · rw [if_pos hfull]
        exact .weakened hc hw
      · rw [if_neg hfull]
        unfold launchFor
        cases hl : (b.put sid taken.2).launch env r w (some (use.binding codec)) with
        | error e => exact .weakened hc hw
        | ok b' =>
          rw [(Broker.launch_ok hl).1]
          simp only [Broker.put,Table.set_set]
          apply Dispatched.performed hc hop hdec hvalid hsession hrun hepoch hfresh
            (by simpa using ho) hcarries hw
          intro hneeded
          rw [if_pos hneeded] at htaken
          cases hid : use.action.approvalID with
          | none =>
            rw [hid] at htaken
            rw [← htaken] at hspent
            simp [Dispatch.takeApproval] at hspent
          | some x =>
            rw [hid] at htaken
            refine ⟨x,rfl,?_,?_⟩
            · rw [← htaken] at hspent
              exact not_not.mp hspent
            · rw [← htaken]
              exact Table.get_erase_self _ _

lemma Dispatch.admitAction_carries {op : Op} {a : Action} {aim : Aim} {w : Worker}
    (h : Dispatch.admitAction codec env op s a = .ok (aim,w)) (run : String) (epoch : ℕ) :
    w.Carries ⟨sid,run,epoch,a⟩ aim := by
  unfold Dispatch.admitAction at h
  split_ifs at h
  split at h
  · cases h
  · split_ifs at h
    split at h
    · cases h
    · split at h
      · cases h
      · injection h with h
        obtain ⟨rfl,rfl⟩ := Prod.mk.inj h
        exact ⟨rfl,rfl,rfl⟩

lemma Dispatch.action_cases (hc : context b r = .ok (sid,s))
    (hop : r.op = .approve ∨ r.op.acts = true) :
    Dispatched codec env r b (Dispatch.action codec env r sid s b).1
    (Dispatch.action codec env r sid s b).2 := by
  unfold Dispatch.action
  cases hdec : codec.decodeAction r.payload with
  | error e => exact .refused e
  | ok a =>
    dsimp only
    cases hvalid : a.validate with
    | error e => exact .refused e
    | ok u =>
      dsimp only
      cases hentry : (if r.op.acts then s.actions.get a.actionID else none) with
      | some entry =>
        have hget : s.actions.get a.actionID = some entry := by
          split_ifs at hentry with ha
          exact hentry
        unfold Dispatch.replay
        dsimp only
        by_cases hb : entry.1 ≠ Use.binding codec ⟨sid,s.runID,s.epoch,a⟩
        · rw [if_pos hb]
          exact .refused _
        · rw [if_neg hb]
          unfold Broker.output
          cases hw : env.relay with
          | some e => exact .refused e
          | none => exact .replayed hc hget
      | none =>
        dsimp only
        cases hadm : Dispatch.admitAction codec env r.op s a with
        | error e => exact .refused e
        | ok p =>
          obtain ⟨aim,w⟩ := p
          dsimp only
          by_cases ha : r.op = .approve
          · rw [if_pos ha]
            unfold Dispatch.approve
            by_cases hfull : maxApprovals ≤ s.approvals.size
            · rw [if_pos hfull]
              exact .refused _
            · rw [if_neg hfull]
              exact .approved hc hvalid rfl
          · rw [if_neg ha]
            have hacts := hop.resolve_left ha
            rw [if_pos hacts] at hentry
            exact Dispatch.perform_cases hc hacts hdec hvalid rfl rfl rfl hentry
              (Dispatch.admitAction_carries hadm _ _)

/-- Dispatching a request does one of the things listed. -/
theorem dispatch_cases (codec : Codec) (env : Env) (r : Request) (b : Broker) :
    Dispatched codec env r b (dispatch codec env r b).1 (dispatch codec env r b).2 := by
  unfold dispatch
  by_cases hid : r.id = "" ∨ 160 < r.id.utf8ByteSize
  · rw [if_pos hid]
    exact .refused _
  · rw [if_neg hid]
    by_cases hbusy : maxHelpers ≤ b.pending.size ∧ r.op.interrupts = false
    · rw [if_pos hbusy]
      exact .refused _
    · rw [if_neg hbusy]
      split
      · next hop => exact Dispatch.probe_cases hop
      · next hop => exact Dispatch.attach_cases hop
      · unfold Dispatch.withSession
        cases hc : context b r with
        | error e => exact .refused e
        | ok p =>
          obtain ⟨sid,s⟩ := p
          dsimp only
          by_cases hi : r.op.interrupts = true
          · rw [if_pos hi]
            exact Dispatch.interrupt_cases hid hc hi
          · rw [if_neg hi]
            by_cases hp : s.pending.isSome = true
            · rw [if_pos hp]
              exact .refused _
            · rw [if_neg hp]
              unfold Dispatch.idle
              split
              · next hop => exact Dispatch.focus_cases hc (by rw [hop]; rfl)
              · next hop =>
                  exact Dispatch.launchFor_cases hc (.refl s) (by rw [hop]; rfl) (.inl rfl)
                    (.inl rfl)
              · next hop => exact Dispatch.resolve_cases hc (by rw [hop]; rfl)
              · next hop => exact Dispatch.resolve_cases hc (by rw [hop]; rfl)
              · exact Dispatch.resume_cases hc
              · next hop => exact Dispatch.action_cases hc (.inl hop)
              · next hop => exact Dispatch.action_cases hc (.inr (by rw [hop]; rfl))
              · next hop => exact Dispatch.action_cases hc (.inr (by rw [hop]; rfl))
              · exact .refused _

end Dispatch

/-- Every way a helper's result is taken in. -/
inductive Settled (env : Env) (r : Request) (b : Broker) : Except DesktopError Json → Broker → Prop
  | kept {result : Except DesktopError Json} {n : ℕ} (hn : b.counter ≤ n) :
      Settled env r b result { b with counter := n }
  | attached {result : Except DesktopError Json} {s : Session} (hop : r.op = .attach)
      (hs : s.approvals = .empty ∧ s.actions = .empty ∧ s.pending = none) :
      Settled env r b result
        { b.put (identity "session" env.stamp (b.counter+1)) s with counter := b.counter+1 }
  | changed {result : Except DesktopError Json} {n : ℕ} {sid : String} {s s' : Session}
      (hop : r.op.acts = false)
      (hs : b.sessions.get sid = some s) (hw : s.Weaker s') (hn : b.counter ≤ n) :
      Settled env r b result { b.put sid s' with counter := n }
  | observed {result : Except DesktopError Json} {n : ℕ} {sid : String} {s s' : Session}
      (hop : r.op.acts = false)
      (hs : b.sessions.get sid = some s) (hw : s.Weaker s') (hempty : s'.approvals = .empty)
      (hn : b.counter ≤ n) :
      Settled env r b result { (b.put sid s').note (.observed sid) with counter := n }

section Completed
variable {codec : Codec} {env : Env} {b : Broker} {r : Request} {sid : String} {s : Session}
    {value : Json}

lemma Settled.same (result : Except DesktopError Json) : Settled env r b result b :=
  .kept (n := b.counter) le_rfl

lemma Completed.attach_cases (hop : r.op = .attach) :
    Settled env r b (Completed.attach codec env r value b).1
    (Completed.attach codec env r value b).2 := by
  unfold Completed.attach
  split
  · exact .same _
  · split
    · exact .same _
    · dsimp only
      split
      · exact .kept (by omega)
      · exact .attached hop ⟨rfl,rfl,rfl⟩

lemma Completed.focus_cases (hs : b.sessions.get sid = some s) (hop : r.op.acts = false) :
    Settled env r b (Completed.focus codec sid s value b).1
    (Completed.focus codec sid s value b).2 := by
  unfold Completed.focus
  split
  · exact .same _
  · exact .changed (n := b.counter) hop hs ⟨id,rfl,rfl⟩ le_rfl

lemma Completed.resolveTarget_cases (hs : b.sessions.get sid = some s) (hop : r.op.acts = false) :
    Settled env r b (Completed.resolveTarget codec env r sid s value b).1
      (Completed.resolveTarget codec env r sid s value b).2 := by
  unfold Completed.resolveTarget
  split
  · exact .same _
  · exact .same _
  · split
    · exact .same _
    · dsimp only
      split
      · exact .kept (by omega)
      · exact .changed hop hs ⟨id,rfl,rfl⟩ (by omega)

lemma Completed.observe_cases (hs : b.sessions.get sid = some s) (hop : r.op.acts = false) :
    Settled env r b (Completed.observe codec env sid s value b).1
      (Completed.observe codec env sid s value b).2 := by
  unfold Completed.observe
  split
  · exact .same _
  · dsimp only
    split
    · exact .changed hop hs ⟨fun h => (by cases h),rfl,rfl⟩ (by omega)
    · exact .observed hop hs ⟨fun h => (by cases h),rfl,rfl⟩ rfl (by omega)

theorem settle_cases (codec : Codec) (env : Env) (r : Request) (result : Except DesktopError Json)
    (b : Broker) :
    Settled env r b (Completed.settle codec env r result b).1
    (Completed.settle codec env r result b).2 := by
  unfold Completed.settle
  cases result with
  | error e => exact .same _
  | ok value =>
    dsimp only
    unfold Completed.accept
    by_cases ha : r.op = .attach
    · rw [if_pos ha]
      exact Completed.attach_cases ha
    · rw [if_neg ha]
      split
      · exact .same _
      · next sid hid =>
        split
        · exact .same _
        · next s hs =>
          split_ifs with he
          · exact .same _
          · split
            · next hop => exact Completed.focus_cases hs (by rw [hop]; rfl)
            · next hop => exact Completed.resolveTarget_cases hs (by rw [hop]; rfl)
            · next hop => exact Completed.observe_cases hs (by rw [hop]; rfl)
            · exact .same _

/-- Every way a finished helper leaves its session. -/
inductive Concluded (codec : Codec) (operation : Pending) (response : Response) (b : Broker) :
    Broker → Prop
  | gone (h : ∀ sid ∈ operation.request.sessionID, b.sessions.get sid = none) :
      Concluded codec operation response b b
  | rested {sid : String} {s s' : Session} (hid : operation.request.sessionID = some sid)
      (hs : b.sessions.get sid = some s) (hop : operation.request.op.acts = false)
      (hw : { s with pending := none }.Weaker s') :
      Concluded codec operation response b (b.put sid s')
  | finished {sid : String} {s s' : Session} (hid : operation.request.sessionID = some sid)
      (hs : b.sessions.get sid = some s) (hop : operation.request.op.acts = true)
      (hw : { s with pending := none }.Weaker s') (hempty : s'.approvals = .empty) :
      Concluded codec operation response b ((b.put sid (s'.journal codec operation response)).note
        (.finished sid))

theorem conclude_cases (codec : Codec) (operation : Pending) (response : Response) (b : Broker) :
    Concluded codec operation response b (Completed.conclude codec operation response b) := by
  unfold Completed.conclude
  cases hid : operation.request.sessionID with
  | none => exact .gone (by simp [hid])
  | some sid =>
    dsimp only
    cases hs : b.sessions.get sid with
    | none =>
      apply Concluded.gone
      intro k hk
      rw [hid] at hk
      rw [← Option.some.inj hk,hs]
    | some s =>
      dsimp only
      have hw := Session.weaker_suspend response { s with pending := none }
      by_cases hop : operation.request.op.acts = true
      · rw [if_pos hop]
        exact .finished hid hs hop (hw.trans ⟨fun h => (by cases h),rfl,rfl⟩) rfl
      · rw [if_neg hop]
        exact .rested hid hs (by simpa using hop) hw

end Completed
end Manvi.Desktop
