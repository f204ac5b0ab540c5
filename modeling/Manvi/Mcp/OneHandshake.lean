import Manvi.Mcp.Handshake
import Manvi.Mcp.OwnReply

/-! One handshake in a session: what the server is asked and told in every run. -/
namespace Manvi.Mcp
open Manvi.Encoding

/-- The requests that waited at the end of the stream were flushed. -/
def Past (c : Client) : Prop := c.reader = .flushed ∨ c.reader = .finished

/-- What a request that ended in some way says about the client. -/
def EndOk (c : Client) (kind : Kind) : Outcome → Prop
  | .sendFailed .closedClient => c.closed = true
  | .sendFailed .exited => c.reader = .finished
  | .sendFailed .uncertain => c.closed = true
  | .ctxEnded => kind = .call
  | .serverExited => c.reader = .finished
  | .aborted => c.closed = true
  | .cut => Past c
  | _ => True

/-- What is over stays over. -/
structure Later (c c' : Client) : Prop where
  closed : c.closed = true → c'.closed = true
  finished : c.reader = .finished → c'.reader = .finished
  past : Past c → Past c'
  heard : ∀ line ∈ c.heard, line ∈ c'.heard
  shut : ∀ r, (c'.chans r).closed = true → (c.chans r).closed = true ∨ Past c'

section client
variable {decodeFrame : Bytes → Decoded} {c c' : Client} {a : Action} {r : ℕ}

lemma Later.of_same (hclosed : c.closed = true → c'.closed = true) (hreader : c'.reader = c.reader)
    (hheard : c'.heard = c.heard)
    (hshut : ∀ r, (c'.chans r).closed = true → (c.chans r).closed = true) : Later c c' where
  closed := hclosed
  finished := fun h => by rw [hreader,h]
  past := fun h => by rw [Past,hreader]; exact h
  heard := fun line hl => by rw [hheard]; exact hl
  shut := fun r h => .inl (hshut r h)

/-- The reader goes on before the end of the stream. -/
lemma Later.of_open (hopen : ¬ Past c) (hclosed : c'.closed = c.closed)
    (hheard : ∀ line ∈ c.heard, line ∈ c'.heard)
    (hshut : ∀ r, (c'.chans r).closed = true → (c.chans r).closed = true) : Later c c' where
  closed := fun h => by rw [hclosed,h]
  finished := fun h => absurd (.inr h) hopen
  past := fun h => absurd h hopen
  heard := hheard
  shut := fun r h => .inl (hshut r h)

lemma send_shut {reply : Reply} {rd : Reader} (h : c.sendTo r reply rd = some c') :
    c'.closed = c.closed ∧ c'.heard = c.heard ∧ ∀ r, (c'.chans r).closed = true →
    (c.chans r).closed = true := by
  obtain ⟨chan,hsend,rfl⟩ := Option.map_eq_some_iff.mp h
  refine ⟨rfl,rfl,fun r' hr' => ?_⟩
  by_cases hne : r' = r
  · subst hne
    rw [show Client.chans _ r' = chan from Function.update_self _ _ _] at hr'
    unfold Chan.send at hsend
    split_ifs at hsend
    split at hsend
    · cases hsend
      exact hr'
    · cases hsend
  · rw [show Client.chans _ r' = c.chans r' from Function.update_of_ne hne _ _] at hr'
    exact hr'

lemma read_later (c : Client) (item : Item) (hopen : ¬ Past c) :
    Later c (c.read decodeFrame item) := by
  refine Later.of_open hopen (read_frame c item).2.1 ?_
    (fun r h => by rw [(read_cases c item).1] at h; exact h)
  intro line hl
  obtain hsame | ⟨bytes,_,hmore⟩ := (read_frame c item).2.2
  · rw [hsame]
    exact hl
  · rw [hmore]
    exact List.mem_append_left _ hl

lemma step_later (h : c.step decodeFrame a = some c') : Later c c' := by
  unfold Client.step at h
  cases a with
  | read item =>
    obtain ⟨hrd,he⟩ := Option.ite_none_right_eq_some.mp h
    cases he
    exact read_later c item (by rw [Past,hrd]; simp)
  | deliver =>
    dsimp only at h
    split at h
    · rename_i r resp hrd
      obtain ⟨hclosed,hheard,hshut⟩ := send_shut h
      exact Later.of_open (by rw [Past,hrd]; simp) hclosed (by rw [hheard]; simp) hshut
    · cases h
  | fail r =>
    dsimp only at h
    split at h
    · rename_i left reason hrd
      obtain ⟨_,h⟩ := Option.ite_none_right_eq_some.mp h
      obtain ⟨hclosed,hheard,hshut⟩ := send_shut h
      exact Later.of_open (by rw [Past,hrd]; simp) hclosed (by rw [hheard]; simp) hshut
    · cases h
  | resume =>
    dsimp only at h
    split at h
    · rename_i hrd
      cases h
      exact Later.of_open (by rw [Past,hrd]; simp) rfl (fun _ hl => hl) (fun _ hr => hr)
    · cases h
  | eof =>
    obtain ⟨hrd,he⟩ := Option.ite_none_right_eq_some.mp h
    cases he
    exact Later.of_open (by rw [Past,hrd]; simp) rfl (fun _ hl => hl) (fun _ hr => hr)
  | flush =>
    obtain ⟨hrd,he⟩ := Option.ite_none_right_eq_some.mp h
    cases he
    refine ⟨id,?_,fun _ => .inl rfl,fun _ hl => hl,fun _ _ => .inr (.inl rfl)⟩
    intro hf
    rw [hrd] at hf
    cases hf
  | finish =>
    obtain ⟨hrd,he⟩ := Option.ite_none_right_eq_some.mp h
    cases he
    exact ⟨id,fun _ => rfl,fun _ => .inr rfl,fun _ hl => hl,fun _ hr => .inl hr⟩
  | close =>
    cases h
    exact Later.of_same (fun _ => rfl) rfl rfl (fun _ hr => hr)
  | begin r kind =>
    obtain ⟨_,he⟩ := Option.ite_none_right_eq_some.mp h
    cases he
    exact Later.of_same id rfl rfl (fun _ hr => hr)
  | move r m =>
    obtain ⟨q,_,he⟩ := Option.map_eq_some_iff.mp h
    cases he
    exact Later.of_same (fun hc => by simp [hc]) rfl rfl (fun _ hr => hr)
  | number r =>
    obtain ⟨_,he⟩ := Option.ite_none_right_eq_some.mp h
    cases he
    exact Later.of_same id rfl rfl (fun _ hr => hr)
  | register r =>
    obtain ⟨_,he⟩ := Option.ite_none_right_eq_some.mp h
    cases he
    exact Later.of_same id rfl rfl (fun _ hr => hr)
  | receive r =>
    obtain ⟨_,he⟩ := Option.ite_none_right_eq_some.mp h
    obtain ⟨⟨o,chan⟩,hrecv,he⟩ := Option.map_eq_some_iff.mp he
    cases he
    refine Later.of_same id rfl rfl (fun r' hr' => ?_)
    by_cases hne : r' = r
    · subst hne
      rw [show Client.chans _ r' = chan from Function.update_self _ _ _] at hr'
      unfold Chan.receive at hrecv
      split at hrecv
      · cases hrecv
        exact hr'
      · split_ifs at hrecv with hclosed
        exact hclosed
    · rw [show Client.chans _ r' = c.chans r' from Function.update_of_ne hne _ _] at hr'
      exact hr'
  | forget r =>
    dsimp only at h
    split at h
    · cases h
      exact Later.of_same id rfl rfl (fun _ hr => hr)
    · cases h

lemma EndOk.later {kind : Kind} {o : Outcome} (hl : Later c c') (h : EndOk c kind o) :
    EndOk c' kind o := by
  cases o with
  | sendFailed err =>
    cases err with
    | closedClient => exact hl.closed h
    | exited => exact hl.finished h
    | encoding => trivial
    | writing => trivial
    | uncertain => exact hl.closed h
  | ctxEnded => exact h
  | serverExited => exact hl.finished h
  | aborted => exact hl.closed h
  | cut => exact hl.past h
  | replied reply => trivial

/-- Every request that is leaving or has returned tells the truth about the client. -/
structure Ends (c : Client) : Prop where
  shut : ∀ r, (c.chans r).closed = true → Past c
  ends : ∀ r o, (c.requests r).phase = .leaving o ∨ (c.requests r).phase = .returned o →
    EndOk c (c.requests r).kind o

lemma Ends.start : Ends Client.start where
  shut := fun _ h => by cases h
  ends := fun _ _ h => by obtain h | h := h <;> cases h

lemma endOk_move {q q' : Request} {ready : Bool} {m : Move}
    (h : q.move c.closed (c.reader = .finished) ready m = some q')
    (hl : Later c c') (hclosed : m = .write .uncertain → c'.closed = true)
    (hq : ∀ o, q.phase = .leaving o ∨ q.phase = .returned o → EndOk c q.kind o) (o : Outcome)
    (ho : q'.phase = .leaving o ∨ q'.phase = .returned o) : EndOk c' q'.kind o := by
  cases m with
  | endCtx =>
    cases h
    exact (hq o ho).later hl
  | checkClosed =>
    obtain ⟨_,he⟩ := Option.ite_none_right_eq_some.mp h
    cases he
    cases hc : c.closed with
    | false =>
      rw [hc] at ho
      obtain ho | ho := ho <;> cases ho
    | true =>
      rw [hc] at ho
      obtain ho | ho := ho
      · cases ho
      · cases ho
        exact hl.closed hc
  | checkDone =>
    obtain ⟨_,he⟩ := Option.ite_none_right_eq_some.mp h
    cases he
    by_cases hd : c.reader = .finished
    · rw [hd] at ho
      obtain ho | ho := ho
      · cases ho
      · cases ho
        exact hl.finished hd
    · dsimp only at ho
      rw [if_neg (by simpa using hd)] at ho
      obtain ho | ho := ho <;> cases ho
  | encodeFails =>
    obtain ⟨_,he⟩ := Option.ite_none_right_eq_some.mp h
    cases he
    obtain ho | ho := ho
    · cases ho
    · cases ho
      trivial
  | write w =>
    obtain ⟨_,he⟩ := Option.ite_none_right_eq_some.mp h
    cases he
    cases w with
    | ok => obtain ho | ho := ho <;> cases ho
    | failed =>
      obtain ho | ho := ho
      · cases ho
        trivial
      · cases ho
    | uncertain =>
      obtain ho | ho := ho
      · cases ho
        exact hclosed rfl
      · cases ho
  | seeDone =>
    obtain ⟨hp,he⟩ := Option.ite_none_right_eq_some.mp h
    cases he
    obtain ho | ho := ho
    · cases ho
    · cases ho
      exact hl.finished (of_decide_eq_true hp.2.1)
  | seeCtx =>
    obtain ⟨hp,he⟩ := Option.ite_none_right_eq_some.mp h
    cases he
    obtain ho | ho := ho
    · cases ho
      exact hp.2.1
    · cases ho
  | abort =>
    obtain ⟨hp,he⟩ := Option.ite_none_right_eq_some.mp h
    cases he
    obtain ho | ho := ho
    · cases ho
      exact hl.closed hp.2.2
    · cases ho

lemma Ends.step (h : Ends c) (hstep : c.step decodeFrame a = some c') : Ends c' where
  shut := by
    intro r hr
    obtain hold | hpast := (step_later hstep).shut r hr
    · exact (step_later hstep).past (h.shut r hold)
    · exact hpast
  ends := by
    intro r o ho
    have hl := step_later hstep
    obtain hsame | ⟨m,rfl,hmove⟩ | ⟨kind,_,_,he⟩ | ⟨id,_,he⟩ | ⟨_,he⟩ | ⟨o',he,hcase⟩ :=
      step_request hstep r
    · rw [hsame] at ho ⊢
      exact (h.ends r o ho).later hl
    · refine endOk_move hmove hl ?_ (h.ends r) o ho
      rintro rfl
      obtain ⟨q,_,he⟩ := Option.map_eq_some_iff.mp hstep
      cases he
      simp
    · rw [he] at ho
      obtain ho | ho := ho <;> cases ho
    · rw [he] at ho
      obtain ho | ho := ho <;> cases ho
    · rw [he] at ho
      obtain ho | ho := ho <;> cases ho
    · rw [he] at ho ⊢
      obtain ho | ho := ho
      · cases ho
      · cases ho
        obtain hleave | ⟨_,chan,hrecv⟩ := hcase
        · exact (h.ends r o (.inl hleave)).later hl
        · unfold Chan.receive at hrecv
          split at hrecv
          · cases hrecv
            trivial
          · split_ifs at hrecv with hclosed
            cases hrecv
            exact hl.past (h.shut r hclosed)

end client

/-- The flight is under way. -/
def Flight.active : Flight → Bool
  | .starting _ _ | .asking _ _ | .accepted _ _ | .notifying _ _ | .concluded _ => true
  | _ => false

/-- The flight has not told the server of a session. -/
def Flight.untold : Flight → Bool
  | .starting _ _ | .asking _ _ | .accepted _ _ | .notifying _ _ | .concluded .failed => true
  | _ => false

/-- At most one flight is under way, its end is published for good, and only one that succeeds tells
the server and lets callers through. -/
structure Course (s : Session) : Prop where
  flight : ∀ f, s.initFlight = some f → s.initResult = none ∧ s.initFatal = false ∧
    (s.flights f).active = true
  other : ∀ f, (s.flights f).active = true → s.initFlight = some f
  fatal : ∀ f, s.flights f = .published .fatal ∨ s.flights f = .done .fatal → s.initFatal = true
  ok : ∀ f v, s.flights f = .published (.ok v) ∨ s.flights f = .done (.ok v) → s.initResult ≠ none
  most : s.notified ≤ 1
  told : s.initResult ≠ none → s.notified = 1
  concluded : ∀ f v, s.flights f = .concluded (.ok v) → s.notified = 1
  untold : ∀ f, (s.flights f).untold = true → s.notified = 0
  idle : s.initFlight = none → s.initResult = none → s.initFatal = false → s.notified = 0
  ready : ∀ k, s.callers k = .ready → s.notified = 1
  tools : s.tools ≠ [] → s.notified = 1

namespace Course
variable {s : Session} {f : ℕ} {codec : Codec}

lemma start : Course Session.start where
  flight := fun _ h => by cases h
  other := fun _ h => by cases h
  fatal := fun _ h => by obtain h | h := h <;> cases h
  ok := fun _ _ h => by obtain h | h := h <;> cases h
  most := Nat.zero_le 1
  told := fun h => absurd rfl h
  concluded := fun _ _ h => by cases h
  untold := fun _ h => by cases h
  idle := fun _ _ _ => rfl
  ready := fun _ h => by cases h
  tools := fun h => absurd rfl h

lemma at_flight (h : Course s) (hactive : (s.flights f).active = true) (g : ℕ)
    (hg : s.initFlight = some g) : g = f := by
  rw [h.other f hactive] at hg
  exact (Option.some.inj hg).symm

/-- A flight under way goes on. -/
lemma advance (h : Course s) (hold : (s.flights f).active = true) {flight : Flight}
    (hactive : flight.active = true) {n : ℕ}
    {client : Client} (hmost : n ≤ 1) (hstay : s.notified = 1 → n = 1)
    (hok : ∀ v, flight = .concluded (.ok v) → n = 1) (huntold : flight.untold = true → n = 0) :
    Course { s.setFlight f flight with notified := n, client := client } := by
  have hf : s.initFlight = some f := h.other f hold
  refine ⟨?_,?_,?_,?_,hmost,fun hr => hstay (h.told hr),?_,?_,?_,fun k hk => hstay (h.ready k hk),
    fun ht => hstay (h.tools ht)⟩
  · intro g hg
    obtain rfl := h.at_flight hold g hg
    refine ⟨(h.flight g hg).1,(h.flight g hg).2.1,?_⟩
    rw [show Session.flights _ g = flight from Function.update_self _ _ _]
    exact hactive
  · exact (Function.forall_update_iff s.flights (fun g φ => φ.active = true →
      s.initFlight = some g)).mpr
      ⟨fun _ => hf,fun g _ => h.other g⟩
  · refine (Function.forall_update_iff s.flights (fun g φ => φ = .published .fatal ∨
      φ = .done .fatal →
      s.initFatal = true)).mpr ⟨?_,fun g _ => h.fatal g⟩
    rintro (rfl | rfl) <;> cases hactive
  · refine (Function.forall_update_iff s.flights (fun g φ => ∀ v, φ = .published (.ok v) ∨
      φ = .done (.ok v) →
      s.initResult ≠ none)).mpr ⟨?_,fun g _ => h.ok g⟩
    rintro v (rfl | rfl) <;> cases hactive
  · refine (Function.forall_update_iff s.flights (fun g φ => ∀ v, φ = .concluded (.ok v) →
      n = 1)).mpr
      ⟨hok,fun g _ v hg => hstay (h.concluded g v hg)⟩
  · refine (Function.forall_update_iff s.flights (fun g φ => φ.untold = true → n = 0)).mpr ⟨huntold,
      fun g hne hg => ?_⟩
    have hga : (s.flights g).active = true := by
      cases hs : s.flights g <;> rw [hs] at hg <;> first | rfl | cases hg
    exact absurd (h.at_flight hold g (h.other g hga)) hne
  · intro hnone
    have hno : s.initFlight = none := hnone
    rw [hf] at hno
    cases hno

/-- A flight publishes its end. -/
lemma publish (h : Course s) {e : FlightEnd} (hold : s.flights f = .concluded e) :
    Course (s.publish f e) := by
  have hactive : (s.flights f).active = true := by
    rw [hold]
    rfl
  obtain ⟨hresult,hfatal,_⟩ := h.flight f (h.other f hactive)
  have hnone : ∀ g, g ≠ f → (s.flights g).active = false := by
    intro g hne
    rw [← Bool.not_eq_true]
    intro hg
    exact hne (h.at_flight hactive g (h.other g hg))
  have hbefore : ∀ g, g ≠ f → (s.flights g ≠ .published .fatal ∧ s.flights g ≠ .done .fatal) ∧
      ∀ v, s.flights g ≠ .published (.ok v) ∧ s.flights g ≠ .done (.ok v) := by
    intro g _
    refine ⟨⟨fun hg => ?_,fun hg => ?_⟩,fun v => ⟨fun hg => ?_,fun hg => ?_⟩⟩
    · rw [h.fatal g (.inl hg)] at hfatal
      cases hfatal
    · rw [h.fatal g (.inr hg)] at hfatal
      cases hfatal
    · exact h.ok g v (.inl hg) hresult
    · exact h.ok g v (.inr hg) hresult
  refine ⟨fun g hg => (by cases hg),?_,?_,?_,h.most,?_,?_,?_,?_,h.ready,h.tools⟩
  · refine (Function.forall_update_iff s.flights (fun g φ => φ.active = true → none = some g)).mpr
      ⟨fun hg => (by cases hg),fun g hne hg => ?_⟩
    rw [hnone g hne] at hg
    cases hg
  · refine (Function.forall_update_iff s.flights (fun g φ => φ = .published .fatal ∨
      φ = .done .fatal →
      (s.initFatal || e = .fatal) = true)).mpr ⟨?_,fun g hne hg => ?_⟩
    · rintro (hg | hg)
      · cases hg
        simp
      · cases hg
    · obtain hg | hg := hg
      · exact absurd hg (hbefore g hne).1.1
      · exact absurd hg (hbefore g hne).1.2
  · refine (Function.forall_update_iff s.flights (fun g φ => ∀ v, φ = .published (.ok v) ∨
      φ = .done (.ok v) →
      (s.publish f e).initResult ≠ none)).mpr ⟨?_,fun g hne v hg => ?_⟩
    · rintro v (hg | hg)
      · cases hg
        simp [Session.publish]
      · cases hg
    · obtain hg | hg := hg
      · exact absurd hg ((hbefore g hne).2 v).1
      · exact absurd hg ((hbefore g hne).2 v).2
  · intro hr
    cases e with
    | ok v => exact h.concluded f v hold
    | failed => exact absurd hresult hr
    | fatal => exact absurd hresult hr
  · refine (Function.forall_update_iff s.flights (fun g φ => ∀ v, φ = .concluded (.ok v) →
      s.notified = 1)).mpr
      ⟨fun v hg => (by cases hg),fun g _ v hg => h.concluded g v hg⟩
  · refine (Function.forall_update_iff s.flights (fun g φ => φ.untold = true → s.notified = 0)).mpr
      ⟨fun hg => (by cases hg),fun g _ hg => h.untold g hg⟩
  · intro _ hr hfat
    cases e with
    | ok v => cases hr
    | failed =>
      refine h.untold f ?_
      rw [hold]
      rfl
    | fatal => simp [Session.publish] at hfat

/-- A published flight releases those that wait for it. -/
lemma finish (h : Course s) {e : FlightEnd} (hold : s.flights f = .published e) :
    Course (s.setFlight f (.done e)) := by
  refine ⟨?_,?_,?_,?_,h.most,h.told,?_,?_,h.idle,h.ready,h.tools⟩
  · intro g hg
    have hne : g ≠ f := by
      rintro rfl
      have := (h.flight g hg).2.2
      rw [hold] at this
      cases this
    obtain ⟨hr,hf,ha⟩ := h.flight g hg
    exact ⟨hr,hf,by rw [show Session.flights _ g =
      s.flights g from Function.update_of_ne hne _ _]; exact ha⟩
  · exact (Function.forall_update_iff s.flights (fun g φ => φ.active = true →
      s.initFlight = some g)).mpr
      ⟨fun hg => (by cases hg),fun g _ => h.other g⟩
  · refine (Function.forall_update_iff s.flights (fun g φ => φ = .published .fatal ∨
      φ = .done .fatal →
      s.initFatal = true)).mpr ⟨?_,fun g _ => h.fatal g⟩
    rintro (hg | hg)
    · cases hg
    · cases hg
      exact h.fatal f (.inl hold)
  · refine (Function.forall_update_iff s.flights (fun g φ => ∀ v, φ = .published (.ok v) ∨
      φ = .done (.ok v) →
      s.initResult ≠ none)).mpr ⟨?_,fun g _ => h.ok g⟩
    rintro v (hg | hg)
    · cases hg
    · cases hg
      exact h.ok f v (.inl hold)
  · exact (Function.forall_update_iff s.flights (fun g φ => ∀ v, φ = .concluded (.ok v) →
      s.notified = 1)).mpr
      ⟨fun v hg => (by cases hg),fun g _ => h.concluded g⟩
  · exact (Function.forall_update_iff s.flights (fun g φ => φ.untold = true → s.notified = 0)).mpr
      ⟨fun hg => (by cases hg),fun g _ => h.untold g⟩

/-- A new flight sets out where there is none and the session is open. -/
lemma depart (h : Course s) (hresult : s.initResult = none) (hfatal : s.initFatal = false)
    (hnone : s.initFlight = none)
    (version : String) : Course ({ s with initFlight := some f }.setFlight f
      (.starting false version)) := by
  have hidle : ∀ g, (s.flights g).active = false := by
    intro g
    rw [← Bool.not_eq_true]
    intro hg
    rw [h.other g hg] at hnone
    cases hnone
  have hzero := h.idle hnone hresult hfatal
  refine ⟨?_,?_,?_,?_,h.most,h.told,?_,?_,fun hn => (by cases hn),h.ready,h.tools⟩
  · intro g hg
    cases hg
    exact ⟨hresult,hfatal,by rw [show Session.flights _ f = _ from Function.update_self _ _ _]; rfl⟩
  · refine (Function.forall_update_iff s.flights (fun g φ => φ.active = true → some f = some g)).mpr
      ⟨fun _ => rfl,fun g _ hg => ?_⟩
    rw [hidle g] at hg
    cases hg
  · refine (Function.forall_update_iff s.flights (fun g φ => φ = .published .fatal ∨
      φ = .done .fatal →
      s.initFatal = true)).mpr ⟨?_,fun g _ => h.fatal g⟩
    rintro (hg | hg) <;> cases hg
  · refine (Function.forall_update_iff s.flights (fun g φ => ∀ v, φ = .published (.ok v) ∨
      φ = .done (.ok v) →
      s.initResult ≠ none)).mpr ⟨?_,fun g _ => h.ok g⟩
    rintro v (hg | hg) <;> cases hg
  · exact (Function.forall_update_iff s.flights (fun g φ => ∀ v, φ = .concluded (.ok v) →
      s.notified = 1)).mpr
      ⟨fun v hg => (by cases hg),fun g _ => h.concluded g⟩
  · exact (Function.forall_update_iff s.flights (fun g φ => φ.untold = true → s.notified = 0)).mpr
      ⟨fun _ => hzero,fun g _ => h.untold g⟩

/-- A caller goes on. Only one that knows of a session is let through. -/
lemma setCaller (h : Course s) {k : ℕ} {caller : Caller}
    (hready : caller = .ready → s.notified = 1) :
    Course (s.setCaller k caller) :=
  ⟨h.flight,h.other,h.fatal,h.ok,h.most,h.told,h.concluded,h.untold,h.idle,
    (Function.forall_update_iff s.callers (fun _ φ => φ = .ready → s.notified = 1)).mpr ⟨hready,
      fun k _ => h.ready k⟩,h.tools⟩

/-- What the client does, which requests were written and which came from callers concerns no
flight. -/
lemma aside (h : Course s) (client : Client) (written tools : List ℕ)
    (htools : tools ≠ [] → s.notified = 1) :
    Course { s with client := client, written := written, tools := tools } :=
  ⟨h.flight,h.other,h.fatal,h.ok,h.most,h.told,h.concluded,h.untold,h.idle,h.ready,htools⟩

end Course

section steps
variable {codec : Codec} {s s' : Session} {a : Action} {f : ℕ}

/-- A step of the client is one that begins no initialize request. -/
lemma step_client (h : s.step codec (.client a) = some s') : (∀ r, a ≠ .begin r .handshake) ∧
    ∃ c, s.client.step codec.decodeFrame a = some c ∧
    s' = { s with client := c, written := s.writtenBy a } := by
  have hmap : (∀ r, a ≠ .begin r .handshake) ∧ (s.client.step codec.decodeFrame a).map
      (fun c => { s with client := c, written := s.writtenBy a }) = some s' := by
    cases a with
    | begin r kind =>
      cases kind with
      | call => exact ⟨fun _ he => (by cases he),h⟩
      | handshake => cases h
    | _ => exact ⟨fun _ he => (by cases he),h⟩
  obtain ⟨c,hc,he⟩ := Option.map_eq_some_iff.mp hmap.2
  exact ⟨hmap.1,c,hc,he.symm⟩

/-- One that asks for a session learns about it or waits, or sends off the only flight. -/
lemma enter_cases {k : ℕ} (h : s.enter k f = some s') :
    (∃ caller, s' = s.setCaller k caller ∧ (caller = .ready → s.initResult ≠ none)) ∨
    (s.initResult = none ∧ s.initFatal = false ∧ s.initFlight = none ∧
      s' = ({ s with initFlight := some f }.setFlight f
      (.starting false protocolVersionLatest)).setCaller k (.waiting f)) := by
  unfold Session.enter at h
  split at h
  · rename_i hresult
    cases h
    exact .inl ⟨.ready,rfl,fun _ => by rw [hresult]; simp⟩
  · rename_i hresult
    by_cases hfatal : s.initFatal = true
    · rw [if_pos hfatal] at h
      cases h
      exact .inl ⟨.failed,rfl,fun he => by cases he⟩
    · rw [if_neg hfatal] at h
      split at h
      · rename_i f0 _
        cases h
        exact .inl ⟨.waiting f0,rfl,fun he => by cases he⟩
      · rename_i hnone
        obtain ⟨_,he⟩ := Option.ite_none_right_eq_some.mp h
        cases he
        exact .inr ⟨hresult,Bool.not_eq_true _ ▸ hfatal,hnone,rfl⟩

/-- What a flight makes of its request is under way, and no session yet. -/
lemma conclude_active (second : Bool) (r : ℕ) (o : Outcome) :
    (codec.conclude second r o).active = true ∧
    ∀ v, codec.conclude second r o ≠ .concluded (.ok v) := by
  unfold Codec.conclude
  split
  · exact ⟨rfl,by simp⟩
  · split
    · split_ifs
      · exact ⟨rfl,by simp⟩
      · split
        · exact ⟨rfl,by simp⟩
        · exact ⟨rfl,by simp⟩
    · split
      · exact ⟨rfl,by simp⟩
      · split_ifs
        · exact ⟨rfl,by simp⟩
        · exact ⟨rfl,by simp⟩
  · exact ⟨rfl,by simp⟩

lemma Course.step {b : SessionAction} (h : Course s) (hstep : s.step codec b = some s') :
    Course s' := by
  cases b with
  | client a =>
    obtain ⟨_,c,_,rfl⟩ := step_client hstep
    exact h.aside c _ s.tools h.tools
  | enter k f =>
    obtain ⟨_,hstep⟩ := Option.ite_none_right_eq_some.mp hstep
    obtain ⟨caller,rfl,hready⟩ | ⟨hresult,hfatal,hnone,rfl⟩ := enter_cases hstep
    · exact h.setCaller (fun he => h.told (hready he))
    · exact (h.depart hresult hfatal hnone _).setCaller (fun he => by cases he)
  | ask f r =>
    dsimp only [Session.step] at hstep
    split at hstep
    · rename_i second version hold
      obtain ⟨c,_,rfl⟩ := Option.map_eq_some_iff.mp hstep
      exact h.advance (f := f) (by rw [hold]; rfl) rfl h.most id (fun v he => by cases he)
        (fun _ => h.untold f (by rw [hold]; rfl))
    · cases hstep
  | conclude f =>
    dsimp only [Session.step] at hstep
    split at hstep
    · rename_i second r hold
      split at hstep
      · rename_i o _
        cases hstep
        obtain ⟨hactive,hok⟩ := conclude_active second r o
        exact h.advance (f := f) (by rw [hold]; rfl) hactive h.most id (fun v he =>
          absurd he (hok v))
          (fun _ => h.untold f (by rw [hold]; rfl))
      · cases hstep
    · cases hstep
  | checkNotify f =>
    dsimp only [Session.step] at hstep
    split at hstep
    · rename_i r version hold
      cases hstep
      refine h.advance (f := f) (by rw [hold]; rfl) ?_ h.most id ?_ (fun _ =>
        h.untold f (by rw [hold]; rfl))
      · split_ifs <;> rfl
      · intro v he
        split_ifs at he
        cases he
    · cases hstep
  | notify f w =>
    dsimp only [Session.step] at hstep
    split at hstep
    · rename_i r version hold
      cases hstep
      have hzero : s.notified = 0 := h.untold f (by rw [hold]; rfl)
      refine h.advance (f := f) (by rw [hold]; rfl) rfl ?_ ?_ ?_ ?_
      · rw [hzero]
        split_ifs <;> simp
      · rw [hzero]
        simp
      · intro v he
        cases w with
        | ok => simp [hzero]
        | failed => simp at he
        | uncertain => simp at he
      · intro he
        cases w <;> cases he
    · cases hstep
  | publish f =>
    dsimp only [Session.step] at hstep
    split at hstep
    · rename_i e hold
      cases hstep
      exact h.publish hold
    · cases hstep
  | finish f =>
    dsimp only [Session.step] at hstep
    split at hstep
    · rename_i e hold
      cases hstep
      exact h.finish hold
    · cases hstep
  | wake k =>
    dsimp only [Session.step] at hstep
    split at hstep
    · rename_i f _
      split at hstep
      · rename_i version hold
        cases hstep
        exact h.setCaller (fun _ => h.told (h.ok f version (.inr hold)))
      · cases hstep
        exact h.setCaller (fun he => by cases he)
      · cases hstep
    · cases hstep
  | leave k =>
    dsimp only [Session.step] at hstep
    split at hstep
    · cases hstep
      exact h.setCaller (fun he => by cases he)
    · cases hstep
  | call k r =>
    dsimp only [Session.step] at hstep
    split at hstep
    · rename_i hready
      obtain ⟨c,_,rfl⟩ := Option.map_eq_some_iff.mp hstep
      exact (h.setCaller (k := k) (fun he => by cases he)).aside c s.written _ (fun _ =>
        h.ready k hready)
    · cases hstep

end steps

end Manvi.Mcp
