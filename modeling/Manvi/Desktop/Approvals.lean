import Manvi.Desktop.Moves

/-! Approvals: guarded input takes one that was issued for the same use, takes it once, and finds
none that a new observation, a focus, a pause, a resume or a finished action came after. -/
namespace Manvi.Desktop
open Manvi.Encoding

/-- Input that takes an approval: to pixels, with an effect, or to an element that no read-only
selector of the session resolves to. -/
def Guarded (codec : Codec) (aim : Aim) (effect : Effect) : Prop :=
  (∃ m, aim.target = .visual m) ∨ effect = .change ∨
    ∃ node, aim.target = .semantic node ∧
      ∀ s ∈ aim.readOnlyTargets, ∀ n, resolve codec aim.nodes s = .ok n → n.id ≠ node.id

theorem needsApproval_iff (codec : Codec) (aim : Aim) (effect : Effect) :
    needsApproval codec aim effect = true ↔ Guarded codec aim effect := by
  unfold needsApproval Guarded
  cases aim.target with
  | visual m => simp
  | semantic node =>
    simp only [reduceCtorEq,exists_false,false_or,Bool.or_eq_true,decide_eq_true_eq,
      Bool.not_eq_true',
      List.any_eq_false,ResolvedTarget.semantic.injEq,exists_eq_left']
    apply or_congr Iff.rfl
    constructor
    · intro h s hs n hn
      have hne := h s hs
      rw [hn] at hne
      simpa using hne
    · intro h s hs
      cases hr : resolve codec aim.nodes s with
      | error e => simp
      | ok n => simpa using h s hs n hr

namespace Record

/-- Guarded input that takes an approval. -/
def consumes (codec : Codec) (id : String) : Record → Bool
  | .started use aim _ => needsApproval codec aim use.action.effect &&
    use.action.approvalID = some id
  | _ => false

/-- What takes an approval is input that names it. -/
lemma started_of_consumes {codec : Codec} {id : String} {e : Record}
    (h : e.consumes codec id = true) :
    ∃ use aim w, e = .started use aim w ∧ needsApproval codec aim use.action.effect = true ∧
      use.action.approvalID = some id := by
  cases e with
  | started use aim w =>
    simp only [consumes,Bool.and_eq_true,decide_eq_true_eq] at h
    exact ⟨use,aim,w,rfl,h⟩
  | approved | observed | focused | paused | resumed | finished => cases h

/-- The session whose approvals an event ends. -/
def fenced : Record → Option String
  | .observed sid | .focused sid | .paused sid | .resumed sid | .finished sid => some sid
  | _ => none

def approvalID : Record → Option String
  | .approved id _ => some id
  | _ => none

end Record

/-- An approval was issued for a use and nothing has ended it since. -/
def Live (codec : Codec) (record : List Record) (id : String) (use : Use) : Prop :=
  ∃ later earlier, record = later ++ .approved id use :: earlier ∧
    ∀ e ∈ later, e.consumes codec id = false ∧ e.fenced ≠ some use.session

section Live
variable {codec : Codec} {record : List Record} {id : String} {use : Use}

lemma Live.cons (h : Live codec record id use) {e : Record} (hc : e.consumes codec id = false)
    (hf : e.fenced ≠ some use.session) : Live codec (e :: record) id use := by
  obtain ⟨later,earlier,rfl,hlater⟩ := h
  refine ⟨e :: later,earlier,rfl,?_⟩
  intro d hd
  cases List.mem_cons.mp hd with
  | inl heq =>
    rw [heq]
    exact ⟨hc,hf⟩
  | inr hmem => exact hlater d hmem

lemma Live.issued (h : Live codec record id use) : .approved id use ∈ record := by
  obtain ⟨later,earlier,rfl,_⟩ := h
  simp

lemma live_approved (codec : Codec) (record : List Record) (id : String) (use : Use) :
    Live codec (.approved id use :: record) id use := ⟨[],record,rfl,by simp⟩

/-- An event that ends approvals neither issues one nor takes one. -/
lemma Record.of_fenced {e : Record} {sid : String} (h : e.fenced = some sid) (codec : Codec)
    (id : String) :
    e.consumes codec id = false ∧ e.approvalID = none := by
  cases e with
  | approved id use => cases h
  | started use aim w => cases h
  | observed sid => exact ⟨rfl,rfl⟩
  | focused sid => exact ⟨rfl,rfl⟩
  | paused sid => exact ⟨rfl,rfl⟩
  | resumed sid => exact ⟨rfl,rfl⟩
  | finished sid => exact ⟨rfl,rfl⟩

end Live

/-- The identities of the approvals in a record. -/
def issuedIDs (record : List Record) : List String := record.filterMap Record.approvalID

lemma mem_issuedIDs {record : List Record} {id : String} {use : Use}
    (h : .approved id use ∈ record) :
    id ∈ issuedIDs record := List.mem_filterMap.mpr ⟨_,h,rfl⟩

/-- A record in which every approval has an identity of its own, and guarded input found a live
approval with its binding. -/
def Lawful (codec : Codec) : List Record → Prop
  | [] => True
  | e :: past => Lawful codec past ∧ match e with
    | .approved id use => id ∉ issuedIDs past ∧ use.action.Finite
    | .started use aim w => w.Carries use aim ∧ use.action.Finite ∧
        (needsApproval codec aim use.action.effect = true → ∃ id issued,
          use.action.approvalID = some id ∧ Live codec past id issued ∧
          issued.binding codec = use.binding codec)
    | _ => True

section Lawful
variable {codec : Codec} {record : List Record}

lemma Lawful.suffix {later past : List Record} (h : Lawful codec (later ++ past)) :
    Lawful codec past := by
  induction later with
  | nil => exact h
  | cons e later ih => exact ih h.1

lemma Lawful.fence {e : Record} {sid : String} (h : Lawful codec record)
    (he : e.fenced = some sid) :
    Lawful codec (e :: record) := by
  refine ⟨h,?_⟩
  cases e with
  | approved id use => cases he
  | started use aim w => cases he
  | observed sid => trivial
  | focused sid => trivial
  | paused sid => trivial
  | resumed sid => trivial
  | finished sid => trivial

lemma Lawful.finite {id : String} {use : Use} (h : Lawful codec record)
    (hm : .approved id use ∈ record) :
    use.action.Finite := by
  obtain ⟨later,past,rfl⟩ := List.append_of_mem hm
  exact h.suffix.2.2

lemma Lawful.consumed {e : Record} {id : String} (h : Lawful codec record) (hm : e ∈ record)
    (hc : e.consumes codec id = true) : id ∈ issuedIDs record := by
  obtain ⟨later,past,rfl⟩ := List.append_of_mem hm
  have he := h.suffix
  obtain ⟨use,aim,w,rfl,hneeds,hnamed⟩ := Record.started_of_consumes hc
  obtain ⟨k,issued,hk,hlive,_⟩ := he.2.2.2 hneeds
  rw [hnamed] at hk
  rw [Option.some.inj hk]
  exact mem_issuedIDs (List.mem_append_right _ (List.mem_cons_of_mem _ hlive.issued))

/-- A live approval was never taken: not since it was issued, and not before, when it did not
exist. -/
lemma Lawful.untaken {id : String} {use : Use} (h : Lawful codec record)
    (hlive : Live codec record id use) :
    ∀ e ∈ record, e.consumes codec id = false := by
  obtain ⟨later,earlier,rfl,hlater⟩ := hlive
  intro e he
  cases List.mem_append.mp he with
  | inl hl => exact (hlater e hl).1
  | inr hr =>
    cases List.mem_cons.mp hr with
    | inl heq =>
      rw [heq]
      rfl
    | inr hpast =>
      by_contra hc
      simp only [Bool.not_eq_false] at hc
      have hlaw := h.suffix
      exact hlaw.2.1 (hlaw.1.consumed hpast hc)

/-- An identity names one approval. -/
lemma Lawful.unique {id : String} {u v : Use} (h : Lawful codec record)
    (hu : .approved id u ∈ record)
    (hv : .approved id v ∈ record) : u = v := by
  induction record with
  | nil => cases hu
  | cons e past ih =>
    by_cases he : e = .approved id u
    · subst he
      cases List.mem_cons.mp hv with
      | inl heq => exact (Record.approved.inj heq).2.symm
      | inr hpast => exact absurd (mem_issuedIDs hpast) h.2.1
    · have hpast := (List.mem_cons.mp hu).resolve_left (fun heq => he heq.symm)
      cases List.mem_cons.mp hv with
      | inl heq =>
        subst heq
        exact absurd (mem_issuedIDs hpast) h.2.1
      | inr hold => exact ih h.1 hpast hold

/-- Every approval is taken at most once. -/
lemma Lawful.once (h : Lawful codec record) (id : String) :
    record.countP (Record.consumes codec id) ≤ 1 := by
  induction record with
  | nil => simp
  | cons e past ih =>
    by_cases hc : e.consumes codec id = true
    · have hzero : past.countP (Record.consumes codec id) = 0 := by
        rw [List.countP_eq_zero]
        obtain ⟨use,aim,w,rfl,hneeds,hnamed⟩ := Record.started_of_consumes hc
        obtain ⟨k,issued,hk,hlive,_⟩ := h.2.2.2 hneeds
        rw [hnamed] at hk
        rw [Option.some.inj hk]
        intro d hd
        simp [h.1.untaken hlive d hd]
      rw [List.countP_cons_of_pos hc,hzero]
    · rw [List.countP_cons_of_neg hc]
      exact ih h.1

end Lawful

/-- Sessions hold only approvals that are live, under the binding of the use they were issued
for. -/
structure Kept (codec : Codec) (sessions : Table String Session) (record : List Record)
    (counter : ℕ) : Prop where
  held : ∀ {sid s id bound}, sessions.get sid = some s → s.approvals.get id = some bound →
    ∃ use, Live codec record id use ∧ use.session = sid ∧ use.binding codec = bound
  named : ∀ {id}, id ∈ issuedIDs record → ∃ t n, id = identity "approval" t n ∧ n ≤ counter
  lawful : Lawful codec record

section Kept
variable {codec : Codec} {sessions : Table String Session} {record : List Record} {counter n : ℕ}
    {sid : String}
  {s s' : Session}

lemma Kept.count (h : Kept codec sessions record counter) (hn : counter ≤ n) :
    Kept codec sessions record n := by
  refine ⟨h.held,?_,h.lawful⟩
  intro id hid
  obtain ⟨t,k,hk,hle⟩ := h.named hid
  exact ⟨t,k,hk,by omega⟩

lemma Kept.put (h : Kept codec sessions record counter)
    (hw : ∀ {id bound}, s'.approvals.get id = some bound →
      ∃ s, sessions.get sid = some s ∧ s.approvals.get id = some bound) :
    Kept codec (sessions.set sid s') record counter := by
  refine ⟨?_,h.named,h.lawful⟩
  intro k t id bound hk hid
  rw [Table.get_set] at hk
  split_ifs at hk with heq
  · injection hk with hk
    rw [← hk] at hid
    obtain ⟨s,hs,hold⟩ := hw hid
    rw [heq]
    exact h.held hs hold
  · exact h.held hk hid

lemma Kept.weaken (h : Kept codec sessions record counter) (hs : sessions.get sid = some s)
    (hw : s.Weaker s')
    (p : Option String) : Kept codec (sessions.set sid { s' with pending := p }) record counter :=
  h.put (fun hid => ⟨s,hs,hw.approvals hid⟩)

lemma Kept.erase (h : Kept codec sessions record counter) :
    Kept codec (sessions.erase sid) record counter := by
  refine ⟨?_,h.named,h.lawful⟩
  intro k t id bound hk hid
  rw [Table.get_erase] at hk
  split_ifs at hk with heq
  exact h.held hk hid

/-- Put a session without approvals and note the event that ended them. -/
lemma Kept.fence (h : Kept codec sessions record counter) (hempty : s'.approvals = .empty)
    {e : Record}
    (he : e.fenced = some sid) : Kept codec (sessions.set sid s') (e :: record) counter := by
  refine ⟨?_,?_,h.lawful.fence he⟩
  · intro k t id bound hk hid
    rw [Table.get_set] at hk
    split_ifs at hk with heq
    · injection hk with hk
      rw [← hk,hempty] at hid
      cases hid
    · obtain ⟨use,hlive,hsession,hbound⟩ := h.held hk hid
      refine ⟨use,hlive.cons (Record.of_fenced he codec id).1 ?_,hsession,hbound⟩
      rw [he,hsession]
      exact fun hsid => heq (Option.some.inj hsid).symm
  · intro id hid
    have hsame : issuedIDs (e :: record) = issuedIDs record := by
      simp [issuedIDs,(Record.of_fenced he codec id).2]
    rw [hsame] at hid
    exact h.named hid

end Kept

/-- A broker whose approvals are in order. -/
def Broker.Kept (codec : Codec) (b : Broker) : Prop :=
  Desktop.Kept codec b.sessions b.record b.counter

section Steps
variable {codec : Codec} {env : Env} {b b' : Broker} {r : Request} {sid : String} {s s' : Session}

lemma Interrupted.keeps (hi : Interrupted codec b sid s b' s') (hs : b.sessions.get sid = some s)
    (h : b.Kept codec) : b'.Kept codec ∧ s.approvals = s'.approvals := by
  cases hi with
  | idle hnone => exact ⟨h,rfl⟩
  | @cancelled id operation hp ho =>
    have hsame := Session.journal_approvals codec operation (Dispatch.cancelled operation)
      { s with pending := none }
    refine ⟨?_,hsame.symm⟩
    apply Desktop.Kept.put h
    intro id bound hid
    rw [hsame] at hid
    exact ⟨s,hs,hid⟩

lemma approval_fresh {record : List Record} {sessions : Table String Session} {counter t : ℕ}
    (h : Kept codec sessions record counter) :
    identity "approval" t (counter+1) ∉ issuedIDs record := by
  intro hmem
  obtain ⟨t',n,heq,hn⟩ := h.named hmem
  have hsame := identity_inj heq
  omega

lemma Kept.approve {sessions : Table String Session} {record : List Record} {counter t : ℕ}
    {use : Use}
    (h : Kept codec sessions record counter) (hs : sessions.get sid = some s)
    (hfinite : use.action.Finite) (hsession : use.session = sid) :
    Kept codec (sessions.set sid (s.grant (identity "approval" t (counter+1)) (use.binding codec)))
      (.approved (identity "approval" t (counter+1)) use :: record) (counter+1) := by
  have hfresh := approval_fresh (t := t) h
  refine ⟨?_,?_,h.lawful,hfresh,hfinite⟩
  · intro k u id bound hk hid
    by_cases hnew : k = sid ∧ id = identity "approval" t (counter+1)
    · obtain ⟨rfl,rfl⟩ := hnew
      rw [Table.get_set_self] at hk
      rw [← Option.some.inj hk] at hid
      simp only [Session.grant,Table.get_set_self,Option.some.injEq] at hid
      exact ⟨use,live_approved codec record _ use,hsession,hid⟩
    · have hold : ∃ v, sessions.get k = some v ∧ v.approvals.get id = some bound := by
        rw [Table.get_set] at hk
        split_ifs at hk with heq
        · injection hk with hk
          rw [← hk] at hid
          have hne : id ≠ identity "approval" t (counter+1) := fun hid => hnew ⟨heq,hid⟩
          simp only [Session.grant,Table.get_set_of_ne _ hne] at hid
          exact ⟨s,by rw [heq,hs],hid⟩
        · exact ⟨u,hk,hid⟩
      obtain ⟨v,hv,hget⟩ := hold
      obtain ⟨issued,hlive,hrest⟩ := h.held hv hget
      exact ⟨issued,hlive.cons rfl (by simp [Record.fenced]),hrest⟩
  · intro id hid
    have hcons : issuedIDs (.approved (identity "approval" t (counter+1)) use :: record) =
        identity "approval" t (counter+1) :: issuedIDs record := rfl
    rw [hcons] at hid
    cases List.mem_cons.mp hid with
    | inl heq => exact ⟨t,counter+1,heq,le_rfl⟩
    | inr hold =>
      obtain ⟨t',n,hn,hle⟩ := h.named hold
      exact ⟨t',n,hn,by omega⟩

lemma Kept.perform {sessions : Table String Session} {record : List Record} {counter : ℕ}
    {use : Use} {aim : Aim}
    {w : Worker} {p : Option String} (h : Kept codec sessions record counter)
    (hs : sessions.get sid = some s)
    (hcarries : w.Carries use aim) (hfinite : use.action.Finite) (hw : s.Weaker s')
    (htaken : needsApproval codec aim use.action.effect = true →
      ∃ x, use.action.approvalID = some x ∧ s.approvals.get x = some (use.binding codec) ∧
        s'.approvals.get x = none) :
    Kept codec (sessions.set sid { s' with pending := p })
    (.started use aim w :: record) counter := by
  refine ⟨?_,?_,h.lawful,hcarries,hfinite,?_⟩
  · intro k t id bound hk hid
    obtain ⟨issued,hlive,hsession,hbound⟩ := (h.weaken hs hw p).held hk hid
    refine ⟨issued,hlive.cons ?_ (by simp [Record.fenced]),hsession,hbound⟩
    by_contra hc
    simp only [Bool.not_eq_false,Record.consumes,Bool.and_eq_true,decide_eq_true_eq] at hc
    obtain ⟨x,hx,hget,hgone⟩ := htaken hc.1
    have hid' : id = x := by
      rw [hc.2] at hx
      exact Option.some.inj hx
    obtain ⟨taken,htlive,htsession,_⟩ := h.held hs hget
    rw [hid'] at hlive
    have hsame := h.lawful.unique hlive.issued htlive.issued
    have hkey : k = sid := by
      rw [← hsession,hsame,htsession]
    rw [hkey,Table.get_set_self] at hk
    rw [← Option.some.inj hk,hid'] at hid
    rw [hgone] at hid
    cases hid
  · exact h.named
  · intro hneeded
    obtain ⟨x,hx,hget,_⟩ := htaken hneeded
    obtain ⟨issued,hlive,_,hbound⟩ := h.held hs hget
    exact ⟨x,issued,hx,hlive,hbound⟩

lemma Dispatched.keeps {ans : Answer} (hd : Dispatched codec env r b ans b') (h : b.Kept codec) :
    b'.Kept codec := by
  cases hd with
  | answered hans => exact h
  | alone hop => exact h
  | weakened hc hw => exact Desktop.Kept.put h (fun hid => ⟨_,(context_ok hc).2.1,hw.approvals hid⟩)
  | helped hc hw hop hes =>
    cases hes with
    | inl he =>
      subst he
      exact Desktop.Kept.weaken h (context_ok hc).2.1 hw _
    | inr he =>
      obtain ⟨rfl,hempty⟩ := he
      apply Desktop.Kept.fence h _ (e := .focused _) rfl
      exact hempty
  | performed hc hop hdec hvalid hsession hrun hepoch hfresh hfree hcarries hw htaken =>
    exact Desktop.Kept.perform h (context_ok hc).2.1 hcarries
      (Action.finite_of_validate hvalid) hw htaken
  | approved hc hvalid hsession =>
    exact Desktop.Kept.approve h (context_ok hc).2.1 (Action.finite_of_validate hvalid) hsession
  | resumed hc hw hempty =>
    exact Desktop.Kept.fence h hempty rfl
  | replayed hc hentry => exact h
  | stuck hn hc hop hs hp hfail => exact Desktop.Kept.put h (fun hid => ⟨_,(context_ok hc).2.1,hid⟩)
  | lost hn hc hop hs hp hfail =>
    apply Desktop.Kept.put h
    intro id bound hid
    rw [Session.journal_approvals] at hid
    exact ⟨_,(context_ok hc).2.1,hid⟩
  | exhausted hc hi =>
    obtain ⟨hkept,hsame⟩ := hi.keeps (context_ok hc).2.1 h
    cases hi with
    | idle hnone => exact Desktop.Kept.put hkept (fun hid => ⟨_,(context_ok hc).2.1,hid⟩)
    | cancelled hs hp =>
      apply Desktop.Kept.put hkept
      intro id bound hid
      exact ⟨_,Table.get_set_self _ _ _,hid⟩
  | transferred hc hi ht =>
    obtain ⟨hkept,_⟩ := hi.keeps (context_ok hc).2.1 h
    cases ht with
    | inl heq =>
      subst heq
      exact Desktop.Kept.fence hkept rfl rfl
    | inr heq =>
      subst heq
      exact (Desktop.Kept.fence hkept rfl rfl).erase

lemma Settled.keeps {result : Except DesktopError Json} (hd : Settled env r b result b')
    (h : b.Kept codec) :
    b'.Kept codec := by
  cases hd with
  | kept hn => exact Desktop.Kept.count h hn
  | attached hop hs =>
    apply (Desktop.Kept.put h _).count (Nat.le_succ _)
    intro id bound hid
    rw [hs.1] at hid
    cases hid
  | changed hop hs hw hn => exact (Desktop.Kept.put h (fun hid => ⟨_,hs,hw.approvals hid⟩)).count hn
  | observed hop hs hw hempty hn =>
    exact (Desktop.Kept.fence h hempty rfl).count hn

lemma Concluded.keeps {operation : Pending} {response : Response}
    (hd : Concluded codec operation response b b')
    (h : b.Kept codec) : b'.Kept codec := by
  cases hd with
  | gone hnone => exact h
  | rested hid hs hop hw => exact Desktop.Kept.put h (fun hx => ⟨_,hs,hw.approvals hx⟩)
  | finished hid hs hop hw hempty =>
    apply Desktop.Kept.fence h _ rfl
    rw [Session.journal_approvals]
    exact hempty

lemma Broker.Kept.answer (h : b.Kept codec) (response : Response) :
    (b.answer codec env response).Kept codec := by
  cases hw : env.write with
  | some e =>
    rw [Broker.answer_ended hw]
    exact h
  | none =>
    rw [Broker.answer_written hw]
    exact h

lemma Broker.Kept.releaseIdleLease (h : b.Kept codec) : b.releaseIdleLease.Kept codec := by
  obtain ⟨lease,hl⟩ := b.releaseIdleLease_eq
  rw [hl]
  exact h

lemma completed_kept {operation : Pending} {result : Except DesktopError Json} (h : b.Kept codec) :
    (completed codec env operation result b).Kept codec := by
  unfold completed
  split
  · exact h
  · apply Broker.Kept.answer
    apply Broker.Kept.releaseIdleLease
    apply (conclude_cases codec operation _ _).keeps
    exact (settle_cases codec env operation.request result b).keeps h

lemma Broker.Kept.finish {id : String} {result : Except DesktopError Json} (h : b.Kept codec) :
    (b.finish codec env id result).Kept codec := by
  unfold Broker.finish
  split
  · exact h
  · apply completed_kept
    exact h

lemma Broker.Kept.serveRequest (h : b.Kept codec) : (b.serveRequest codec env r).Kept codec := by
  unfold Broker.serveRequest
  dsimp only
  split_ifs with hfull hseen
  · apply Broker.Kept.answer
    exact h
  · apply Broker.Kept.answer
    exact h
  · have hd := (dispatch_cases codec env r { b with
      read := r.id :: b.read, ids := r.id :: b.ids }).keeps h
    split
    · exact hd.releaseIdleLease.answer _
    · exact hd.releaseIdleLease
    · exact hd.releaseIdleLease.answer _

/-- Every turn of the loop keeps approvals in order. -/
theorem Broker.Kept.step (h : b.Kept codec) (e : Event × Env) : (b.step codec e).Kept codec := by
  unfold Broker.step
  split_ifs with hended
  · exact h
  · split
    · exact h.serveRequest
    · apply Broker.Kept.answer
      exact h
    · exact h.finish
    · exact h.finish
    · exact h

end Steps

lemma start_kept (codec : Codec) : start.Kept codec :=
  ⟨fun h => (by cases h),fun h => (by cases h),trivial⟩

theorem run_kept (codec : Codec) (events : List (Event × Env)) : (run codec events).Kept codec := by
  induction events using List.reverseRecOn with
  | nil => exact start_kept codec
  | append_singleton events e ih =>
    rw [run,List.foldl_append]
    exact ih.step e

/-- The uses whose bindings a record rests on. -/
def Record.use : Record → Option Use
  | .approved _ use => some use
  | .started use _ _ => some use
  | _ => none

/-- No two uses of a record are a collision of SHA-256. -/
def CollisionFree (codec : Codec) (record : List Record) : Prop :=
  ∀ u ∈ record.filterMap Record.use, ∀ v ∈ record.filterMap Record.use,
    sha256 (u.bytes codec) = sha256 (v.bytes codec) → u.bytes codec = v.bytes codec

/-- Exact, single-use approvals. -/
structure ExactApprovals (codec : Codec) (b : Broker) : Prop where
  /-- A worker started for guarded input took a live approval of the same session, run, epoch and
  action. -/
  exact : ∀ later use aim w earlier, b.record = later ++ .started use aim w :: earlier →
    w.Carries use aim ∧ (Guarded codec aim use.action.effect →
      ∃ id issued, use.action.approvalID = some id ∧ Live codec earlier id issued ∧ issued.Same use)
  /-- An approval starts at most one worker. -/
  once : ∀ id, b.record.countP (Record.consumes codec id) ≤ 1
  /-- An approval a session still holds was issued for it, and nothing has ended it since. -/
  lasting : ∀ sid s id bound, b.sessions.get sid = some s → s.approvals.get id = some bound →
    ∃ issued, issued.session = sid ∧ Live codec b.record id issued

/-- Whatever requests, completions and deadlines a broker serves, it acts on exact single-use
approvals. -/
theorem run_exactApprovals (codec : Codec) (hcodec : Faithful codec) (events : List (Event × Env))
    (hfree : CollisionFree codec (run codec events).record) :
    ExactApprovals codec (run codec events) := by
  have hkept := run_kept codec events
  refine ⟨?_,hkept.lawful.once,?_⟩
  · intro later use aim w earlier hrecord
    have hlaw := hkept.lawful
    rw [hrecord] at hlaw
    obtain ⟨hpast,hcarries,hfinite,hneeds⟩ := hlaw.suffix
    refine ⟨hcarries,?_⟩
    intro hguarded
    obtain ⟨id,issued,hid,hlive,hbinding⟩ := hneeds ((needsApproval_iff codec aim _).mpr hguarded)
    have hmem : issued ∈ (run codec events).record.filterMap Record.use := by
      rw [hrecord]
      exact List.mem_filterMap.mpr ⟨_,
        List.mem_append_right _ (List.mem_cons_of_mem _ hlive.issued),rfl⟩
    have hmem' : use ∈ (run codec events).record.filterMap Record.use := by
      rw [hrecord]
      exact List.mem_filterMap.mpr ⟨_,List.mem_append_right _ List.mem_cons_self,rfl⟩
    refine ⟨id,issued,hid,hlive,?_⟩
    exact Use.same_of_binding hcodec (hpast.finite hlive.issued) hfinite hbinding
      (hfree _ hmem _ hmem')
  · intro sid s id bound hs hid
    obtain ⟨issued,hlive,hsession,_⟩ := hkept.held hs hid
    exact ⟨issued,hsession,hlive⟩

section Sample

/-- A turn in which every call succeeds, at a time. -/
def calm (time : ℕ) : Env := ⟨time,time,none,none,none,none,none,none⟩

def sampleNode : Node := ⟨"n1","button","OK",none,none,.null⟩

/-- An action on the sample node, with the approval its payload names. -/
def sampleAction (effect : Effect) (payload : Json) : Action :=
  ⟨"a1","observation-3-2","n1",.press,none,none,none,none,effect,
    match get payload "approval_id" with
    | some (.str id) => some id
    | _ => none⟩

def notJson : DesktopError := err "invalid_request" "unexpected value"

def sampleCodec (policy : List Selector) (effect : Effect) : Codec where
  decodeAttach := fun _ => .ok ⟨false,policy,.null⟩
  decodeAction := fun v => .ok (sampleAction effect v)
  decodeSelection := fun _ => .error notJson
  decodeResume := fun _ => .error notJson
  decodeSelector := fun _ => .error notJson
  decodeWindow := fun v => .ok v
  decodeObservation := fun v => .ok ⟨"",0,3,v,[sampleNode],.null,true,none,.null⟩
  decodeTarget := fun _ => .error notJson
  encodeNode := fun n => .str n.id
  encodeObservation := fun o => .ok (.str o.observationID)
  encodeVisual := fun m => .ok (.str m.targetID)
  validateAnchor := fun _ => .ok ()
  stateFingerprint := fun _ => .ok "state"
  formatFinite := fun v => ⟨false,v.toNat,[],none⟩
  tooLarge := fun _ => false

def sampleRequest (id : String) (op : Op) (payload : Json) : Request :=
  ⟨id,op,some "session-1-1",some "run",some 1,payload⟩

/-- Attach to a window and observe it. -/
def sampleOpening : List (Event × Env) :=
  [(.request ⟨"r1",.attach,none,some "run",none,.null⟩,calm 0),
   (.done "r1" (.ok .null),calm 1),
   (.request (sampleRequest "r2" .observe .null),calm 2),
   (.done "r2" (.ok .null),calm 3)]

/-- A change that is approved and started. -/
def approvedEvents : List (Event × Env) := sampleOpening ++
  [(.request (sampleRequest "r3" .approve .null),calm 4),
   (.request (sampleRequest "r4" .act (.obj [("approval_id",.str "approval-4-3")])),calm 5)]

theorem run_exactApprovals_approvedEvents :
    (run (sampleCodec [] .change) approvedEvents).record.countP
        (Record.consumes (sampleCodec [] .change) "approval-4-3") = 1 ∧
      ExactApprovals (sampleCodec [] .change) (run (sampleCodec [] .change) approvedEvents) := by
  refine ⟨by decide +kernel,run_exactApprovals _ ?_ _ ?_⟩
  · intro v w _ _ h
    injection h with _ hwhole
    exact UInt64.toNat_inj.mp hwhole
  · have hsame : ∀ u ∈ (run (sampleCodec [] .change) approvedEvents).record.filterMap Record.use,
        ∀ v ∈ (run (sampleCodec [] .change) approvedEvents).record.filterMap Record.use,
          u.bytes (sampleCodec [] .change) = v.bytes (sampleCodec [] .change) := by decide +kernel
    exact fun u hu v hv _ => hsame u hu v hv

end Sample
end Manvi.Desktop
