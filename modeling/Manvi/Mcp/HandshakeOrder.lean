import Manvi.Mcp.OneHandshake

/-! The order of a session's handshakes: who asks, what was written, and which initialize requests
were refused before another one is written. -/
namespace Manvi.Mcp
open Manvi.Encoding

/-- A request with this end may have reached the server. -/
def Outcome.delivered : Outcome → Bool
  | .sendFailed .uncertain => true
  | .sendFailed _ => false
  | _ => true

def Phase.delivered : Phase → Bool
  | .waiting => true
  | .leaving o => o.delivered
  | .returned o => o.delivered
  | _ => false

/-- How a request goes on by itself. -/
inductive Turns (closed done : Bool) : Move → Phase → Phase → Prop
  | ctx (p : Phase) : Turns closed done .endCtx p p
  | shut : closed = true → Turns closed done .checkClosed .begun
      (.returned (.sendFailed .closedClient))
  | opens : closed = false → Turns closed done .checkClosed .begun .opened
  | gone : done = true → Turns closed done .checkDone .opened (.returned (.sendFailed .exited))
  | lives : done = false → Turns closed done .checkDone .opened .live
  | unencoded : Turns closed done .encodeFails .numbered (.returned (.sendFailed .encoding))
  | sent : Turns closed done (.write .ok) .registered .waiting
  | unsent : Turns closed done (.write .failed) .registered (.leaving (.sendFailed .writing))
  | unsure : Turns closed done (.write .uncertain) .registered (.leaving (.sendFailed .uncertain))
  | ended : done = true → Turns closed done .seeDone .waiting (.returned .serverExited)
  | late : Turns closed done .seeCtx .waiting (.leaving .ctxEnded)
  | aborts : closed = true → Turns closed done .abort .waiting (.leaving .aborted)

lemma move_turns {q q' : Request} {closed done ready : Bool} {m : Move}
    (h : q.move closed done ready m = some q') :
    Turns closed done m q.phase q'.phase ∧ q'.kind = q.kind ∧ q'.id = q.id := by
  unfold Request.move at h
  cases m with
  | endCtx =>
    cases h
    exact ⟨.ctx _,rfl,rfl⟩
  | checkClosed =>
    obtain ⟨hp,he⟩ := Option.ite_none_right_eq_some.mp h
    cases he
    rw [hp]
    cases closed with
    | true => exact ⟨.shut rfl,rfl,rfl⟩
    | false => exact ⟨.opens rfl,rfl,rfl⟩
  | checkDone =>
    obtain ⟨hp,he⟩ := Option.ite_none_right_eq_some.mp h
    cases he
    rw [hp]
    cases done with
    | true => exact ⟨.gone rfl,rfl,rfl⟩
    | false => exact ⟨.lives rfl,rfl,rfl⟩
  | encodeFails =>
    obtain ⟨hp,he⟩ := Option.ite_none_right_eq_some.mp h
    cases he
    rw [hp]
    exact ⟨.unencoded,rfl,rfl⟩
  | write w =>
    obtain ⟨hp,he⟩ := Option.ite_none_right_eq_some.mp h
    cases he
    rw [hp]
    cases w with
    | ok => exact ⟨.sent,rfl,rfl⟩
    | failed => exact ⟨.unsent,rfl,rfl⟩
    | uncertain => exact ⟨.unsure,rfl,rfl⟩
  | seeDone =>
    obtain ⟨hp,he⟩ := Option.ite_none_right_eq_some.mp h
    cases he
    rw [hp.1]
    exact ⟨.ended hp.2.1,rfl,rfl⟩
  | seeCtx =>
    obtain ⟨hp,he⟩ := Option.ite_none_right_eq_some.mp h
    cases he
    rw [hp.1]
    exact ⟨.late,rfl,rfl⟩
  | abort =>
    obtain ⟨hp,he⟩ := Option.ite_none_right_eq_some.mp h
    cases he
    rw [hp.1]
    exact ⟨.aborts hp.2.2,rfl,rfl⟩

section requests
variable {decodeFrame : Bytes → Decoded} {c c' : Client} {a : Action} {r : ℕ}

/-- How a step leaves a request. Only one of its own moves writes it. -/
inductive Goes (c : Client) (a : Action) (r : ℕ) (q q' : Request) : Prop
  | same : q'.phase = q.phase → q'.id = q.id → q'.kind = q.kind → a.writes ≠ some r →
      Goes c a r q q'
  | turns (m : Move) : a = .move r m → Turns c.closed (c.reader = .finished) m q.phase q'.phase →
      q'.id = q.id →
      q'.kind = q.kind → Goes c a r q q'
  | begins (kind : Kind) : a = .begin r kind → q.phase = .idle → q'.phase = .begun →
      q'.kind = kind → Goes c a r q q'
  | numbers : q.phase = .live → q'.phase = .numbered → q'.kind = q.kind → a.writes ≠ some r →
      Goes c a r q q'
  | registers : q.phase = .numbered → q'.phase = .registered → q'.id = q.id → q'.kind = q.kind →
      a.writes ≠ some r →
      Goes c a r q q'
  | returns (o : Outcome) :
      (q.phase = .leaving o ∨ q.phase = .waiting ∧ (o = .cut ∨ ∃ reply, o = .replied reply)) →
      q'.phase = .returned o → q'.id = q.id → q'.kind = q.kind → a.writes ≠ some r → Goes c a r q q'

/-- Only the write of a request writes it. -/
lemma writes_eq_some (h : a.writes = some r) :
    a = .move r (.write .ok) ∨ a = .move r (.write .uncertain) := by
  unfold Action.writes at h
  split at h
  · cases h
    exact .inl rfl
  · cases h
    exact .inr rfl
  · cases h

lemma receive_end {chan chan' : Chan} {o : Outcome} (h : chan.receive = some (o,chan')) :
    o = .cut ∨ ∃ reply, o = .replied reply := by
  unfold Chan.receive at h
  split at h
  · cases h
    exact .inr ⟨_,rfl⟩
  · split_ifs at h
    cases h
    exact .inl rfl

lemma step_goes (h : c.step decodeFrame a = some c') (r : ℕ) :
    Goes c a r (c.requests r) (c'.requests r) := by
  by_cases hown : ∃ m, a = .move r m
  · obtain ⟨m,rfl⟩ := hown
    obtain ⟨q,hmove,rfl⟩ := Option.map_eq_some_iff.mp h
    obtain ⟨hturn,hkind,hid⟩ := move_turns hmove
    rw [show Client.requests _ r = q from Client.setRequest_self c r q]
    exact .turns m rfl hturn hid hkind
  · have hwrites : a.writes ≠ some r := by
      intro hw
      obtain he | he := writes_eq_some hw
      · exact hown ⟨_,he⟩
      · exact hown ⟨_,he⟩
    obtain hsame | ⟨m,hm,-⟩ | ⟨kind,ha,hidle,he⟩ | ⟨id,hlive,he⟩ | ⟨hnum,he⟩ | ⟨o,he,hcase⟩ :=
      step_request h r
    · exact .same (by rw [hsame]) (by rw [hsame]) (by rw [hsame]) hwrites
    · exact absurd ⟨m,hm⟩ hown
    · exact .begins kind ha hidle (by rw [he]) (by rw [he])
    · exact .numbers hlive (by rw [he]) (by rw [he]) hwrites
    · exact .registers hnum (by rw [he]) (by rw [he]) (by rw [he]) hwrites
    · refine .returns o ?_ (by rw [he]) (by rw [he]) (by rw [he]) hwrites
      exact hcase.imp_right (fun hw => ⟨hw.1,receive_end hw.2.choose_spec⟩)

section goes
variable {q q' : Request}

/-- A request that has returned stays as it is. -/
lemma Goes.returned (h : Goes c a r q q') {o : Outcome} (hp : q.phase = .returned o) :
    q'.phase = .returned o ∧ q'.id = q.id ∧ q'.kind = q.kind := by
  cases h with
  | same hphase hid hkind _ => exact ⟨hphase.trans hp,hid,hkind⟩
  | turns m _ hturn hid hkind =>
    rw [hp] at hturn
    generalize q'.phase = p' at hturn
    cases hturn
    exact ⟨rfl,hid,hkind⟩
  | begins kind _ hidle _ _ => rw [hidle] at hp; cases hp
  | numbers hlive _ _ _ => rw [hlive] at hp; cases hp
  | registers hnum _ _ _ _ => rw [hnum] at hp; cases hp
  | returns o' hcase _ _ _ _ =>
    obtain hleave | ⟨hwait,_⟩ := hcase
    · rw [hleave] at hp
      cases hp
    · rw [hwait] at hp
      cases hp

/-- A request that has begun keeps its kind and stays begun. -/
lemma Goes.begun (h : Goes c a r q q') (hp : q.phase ≠ .idle) :
    q'.kind = q.kind ∧ q'.phase ≠ .idle := by
  cases h with
  | same hphase _ hkind _ => exact ⟨hkind,by rw [hphase]; exact hp⟩
  | turns m _ hturn _ hkind =>
    refine ⟨hkind,fun hidle => ?_⟩
    rw [hidle] at hturn
    generalize q.phase = p at hturn hp
    cases hturn
    exact hp rfl
  | begins kind _ hidle _ _ => exact absurd hidle hp
  | numbers _ he hkind _ => exact ⟨hkind,by rw [he]; simp⟩
  | registers _ he _ hkind _ => exact ⟨hkind,by rw [he]; simp⟩
  | returns o _ he _ hkind _ => exact ⟨hkind,by rw [he]; simp⟩

/-- A request reaches the server by the step that writes it, and by no other. -/
lemma Goes.delivered (h : Goes c a r q q') :
    q'.phase.delivered = true ↔ q.phase.delivered = true ∨ a.writes = some r := by
  cases h with
  | same hphase _ _ hw => rw [hphase,or_iff_left hw]
  | turns m ha hturn _ _ =>
    subst ha
    generalize q.phase = p at hturn ⊢
    generalize q'.phase = p' at hturn ⊢
    cases hturn
    all_goals simp [Phase.delivered,Outcome.delivered,Action.writes]
  | begins kind ha hidle he _ =>
    subst ha
    rw [hidle,he]
    simp [Phase.delivered,Action.writes]
  | numbers hlive he _ hw =>
    rw [hlive,he,or_iff_left hw]
    rfl
  | registers hnum he _ _ hw =>
    rw [hnum,he,or_iff_left hw]
    rfl
  | returns o hcase he _ _ hw =>
    rw [he,or_iff_left hw]
    obtain hleave | ⟨hwait,rfl | ⟨reply,rfl⟩⟩ := hcase
    · rw [hleave]
      rfl
    · rw [hwait]
      rfl
    · rw [hwait]
      rfl

end goes

end requests

section session
variable {codec : Codec} {s s' : Session} {b : SessionAction} {f r : ℕ}

/-- What a step of the session does to its client: nothing, or one step of it. -/
lemma step_inner (h : s.step codec b = some s') : (s'.client = s.client ∧ s'.written = s.written) ∨
    ∃ a, s.client.step codec.decodeFrame a = some s'.client ∧ s'.written = s.writtenBy a ∧
      (∀ r, a = .begin r .handshake → ∃ f, b = .ask f r) ∧
      (∀ r m, a = .move r m → b = .client a) := by
  cases b with
  | client a =>
    obtain ⟨hno,c,hc,rfl⟩ := step_client h
    exact .inr ⟨a,hc,rfl,fun r hr => absurd hr (hno r),fun _ _ _ => rfl⟩
  | enter k f =>
    obtain ⟨_,h⟩ := Option.ite_none_right_eq_some.mp h
    obtain ⟨caller,rfl,_⟩ | ⟨_,_,_,rfl⟩ := enter_cases h
    · exact .inl ⟨rfl,rfl⟩
    · exact .inl ⟨rfl,rfl⟩
  | ask f r =>
    dsimp only [Session.step] at h
    split at h
    · obtain ⟨c,hc,rfl⟩ := Option.map_eq_some_iff.mp h
      refine .inr ⟨_,hc,rfl,fun r' hr' => ?_,fun _ _ hm => (by cases hm)⟩
      cases hr'
      exact ⟨f,rfl⟩
    · cases h
  | conclude f =>
    dsimp only [Session.step] at h
    split at h
    · split at h
      · cases h
        exact .inl ⟨rfl,rfl⟩
      · cases h
    · cases h
  | checkNotify f =>
    dsimp only [Session.step] at h
    split at h
    · cases h
      exact .inl ⟨rfl,rfl⟩
    · cases h
  | notify f w =>
    dsimp only [Session.step] at h
    split at h
    · cases h
      by_cases hw : w = .uncertain
      · subst hw
        refine .inr ⟨.close,?_,rfl,fun _ hr => (by cases hr),fun _ _ hm => (by cases hm)⟩
        simp [Client.step]
      · exact .inl ⟨by simp [hw],rfl⟩
    · cases h
  | publish f =>
    dsimp only [Session.step] at h
    split at h
    · cases h
      exact .inl ⟨rfl,rfl⟩
    · cases h
  | finish f =>
    dsimp only [Session.step] at h
    split at h
    · cases h
      exact .inl ⟨rfl,rfl⟩
    · cases h
  | wake k =>
    dsimp only [Session.step] at h
    split at h
    · split at h
      · cases h
        exact .inl ⟨rfl,rfl⟩
      · cases h
        exact .inl ⟨rfl,rfl⟩
      · cases h
    · cases h
  | leave k =>
    dsimp only [Session.step] at h
    split at h
    · cases h
      exact .inl ⟨rfl,rfl⟩
    · cases h
  | call k r =>
    dsimp only [Session.step] at h
    split at h
    · obtain ⟨c,hc,rfl⟩ := Option.map_eq_some_iff.mp h
      exact .inr ⟨_,hc,rfl,fun _ hr => (by cases hr),fun _ _ hm => (by cases hm)⟩
    · cases h

/-- The client of a session is sound, and the initialize requests that may have reached the server
are those that were written. -/
structure Record (codec : Codec) (s : Session) : Prop where
  sound : Sound codec.decodeFrame s.client
  ends : Ends s.client
  written : ∀ r, r ∈ s.written ↔ (s.client.requests r).kind = .handshake ∧
    (s.client.requests r).phase.delivered = true

lemma Record.start (codec : Codec) : Record codec Session.start where
  sound := Sound.start
  ends := Ends.start
  written := fun r => iff_of_false (by simp [Session.start]) (fun h => by cases h.2)

lemma mem_writtenBy (s : Session) (a : Action) (r : ℕ) :
    r ∈ s.writtenBy a ↔ r ∈ s.written ∨
    (a.writes = some r ∧ (s.client.requests r).kind = .handshake) := by
  unfold Session.writtenBy
  cases hw : a.writes with
  | none => simp
  | some r' =>
    dsimp only
    split_ifs with hkind
    · rw [List.mem_append,List.mem_singleton]
      refine or_congr_right ⟨?_,?_⟩
      · rintro rfl
        exact ⟨rfl,hkind⟩
      · rintro ⟨he,_⟩
        exact (Option.some.inj he).symm
    · refine ⟨.inl,?_⟩
      rintro (hr | ⟨he,hk⟩)
      · exact hr
      · cases he
        exact absurd hk hkind

lemma Record.step (h : Record codec s) (hstep : s.step codec b = some s') : Record codec s' := by
  obtain ⟨hclient,hwritten⟩ | ⟨a,ha,hwritten,-,-⟩ := step_inner hstep
  · refine ⟨?_,?_,?_⟩
    · rw [hclient]
      exact h.sound
    · rw [hclient]
      exact h.ends
    · rw [hclient,hwritten]
      exact h.written
  · refine ⟨h.sound.step ha,h.ends.step ha,fun r => ?_⟩
    have hgoes := step_goes ha r
    rw [hwritten,mem_writtenBy,h.written r,hgoes.delivered]
    by_cases hidle : (s.client.requests r).phase = .idle
    · have hnot : a.writes ≠ some r := by
        intro hw
        have hdel := hgoes.delivered.mpr (.inr hw)
        cases hgoes with
        | same hphase _ _ hne => exact hne hw
        | turns m hm hturn _ _ =>
          obtain he | he := writes_eq_some hw
          · rw [he] at hm
            cases hm
            rw [hidle] at hturn
            generalize (s'.client.requests r).phase = p' at hturn
            cases hturn
          · rw [he] at hm
            cases hm
            rw [hidle] at hturn
            generalize (s'.client.requests r).phase = p' at hturn
            cases hturn
        | begins kind _ _ he _ =>
          rw [he] at hdel
          cases hdel
        | numbers _ _ _ hne => exact hne hw
        | registers _ _ _ _ hne => exact hne hw
        | returns o _ _ _ _ hne => exact hne hw
      rw [hidle]
      simp [hnot,Phase.delivered]
    · rw [(hgoes.begun hidle).1]
      tauto

section owned

/-- The server granted a session on a revision that this client talks, in its reply to a request. -/
def Granted (codec : Codec) (c : Client) (r : ℕ) (version : String) : Prop :=
  version ∈ handshakeVersions ∧ (c.requests r).kind = .handshake ∧ ∃ resp,
  (c.requests r).phase = .returned (.replied (.server resp)) ∧
    resp.error = none ∧ From codec.decodeFrame c r resp ∧
    (if resp.result = [] then some "" else codec.version resp.result) = some version

/-- The server refused a request: it was answered by an error with its own id. -/
def Refused (codec : Codec) (c : Client) (r : ℕ) : Prop :=
  ∃ resp, (c.requests r).phase = .returned (.replied (.server resp)) ∧ resp.error ≠ none ∧
  From codec.decodeFrame c r resp

variable {c c' : Client} {a : Action} {flights : ℕ → Flight}

lemma From.later {resp : Response} (h : From codec.decodeFrame c r resp) (hl : Later c c')
    (hid : (c'.requests r).id = (c.requests r).id) : From codec.decodeFrame c' r resp := by
  obtain ⟨line,hline,hp,hdec,hnum⟩ := h
  exact ⟨line,hl.heard line hline,hp,hdec,by rw [hid]; exact hnum⟩

lemma Granted.later {version : String} (h : Granted codec c r version)
    (hstep : c.step codec.decodeFrame a = some c') :
    Granted codec c' r version := by
  obtain ⟨hv,hk,resp,hp,herr,hfrom,hversion⟩ := h
  obtain ⟨hp',hid,hkind⟩ := (step_goes hstep r).returned hp
  exact ⟨hv,hkind.trans hk,resp,hp',herr,hfrom.later (step_later hstep) hid,hversion⟩

lemma Refused.later (h : Refused codec c r) (hstep : c.step codec.decodeFrame a = some c') :
    Refused codec c' r := by
  obtain ⟨resp,hp,herr,hfrom⟩ := h
  obtain ⟨hp',hid,-⟩ := (step_goes hstep r).returned hp
  exact ⟨resp,hp',herr,hfrom.later (step_later hstep) hid⟩

/-- Each initialize request that has not returned is asked by a flight, and a flight that was
granted a session knows the reply. -/
structure Owned (codec : Codec) (flights : ℕ → Flight) (c : Client) : Prop where
  asked : ∀ f second r, flights f = .asking second r → (c.requests r).kind = .handshake ∧
    (c.requests r).phase ≠ .idle
  owner : ∀ r, (c.requests r).kind = .handshake → (c.requests r).phase ≠ .idle →
    (∀ o, (c.requests r).phase ≠ .returned o) →
    ∃ f second, flights f = .asking second r
  granted : ∀ f r version, flights f = .accepted r version ∨ flights f = .notifying r version →
    Granted codec c r version

namespace Owned

lemma start (codec : Codec) : Owned codec Session.start.flights Client.start where
  asked := fun _ _ _ h => by cases h
  owner := fun _ h => by cases h
  granted := fun _ _ _ h => by obtain h | h := h <;> cases h

/-- The client goes on. -/
lemma client (h : Owned codec flights c) (hstep : c.step codec.decodeFrame a = some c')
    (hno : ∀ r, a ≠ .begin r .handshake) :
    Owned codec flights c' where
  asked := by
    intro f second r hf
    obtain ⟨hkind,hidle⟩ := h.asked f second r hf
    obtain ⟨hkind',hidle'⟩ := (step_goes hstep r).begun hidle
    exact ⟨hkind'.trans hkind,hidle'⟩
  owner := by
    intro r hkind hidle hret
    have hgoes := step_goes hstep r
    have hold : (c.requests r).phase ≠ .idle := by
      intro hi
      cases hgoes with
      | same hphase _ _ _ => exact hidle (hphase.trans hi)
      | turns m _ hturn _ _ =>
        rw [hi] at hturn
        generalize (c'.requests r).phase = p' at hturn hidle
        cases hturn
        exact hidle rfl
      | begins kind ha _ _ hk =>
        rw [hkind] at hk
        subst hk
        exact hno r ha
      | numbers hp _ _ _ => rw [hi] at hp; cases hp
      | registers hp _ _ _ _ => rw [hi] at hp; cases hp
      | returns o hp _ _ _ _ =>
        rw [hi] at hp
        obtain hp | ⟨hp,_⟩ := hp
        · cases hp
        · cases hp
    refine h.owner r ((hgoes.begun hold).1.symm.trans hkind) hold (fun o ho => ?_)
    exact hret o (hgoes.returned ho).1
  granted := fun f r version hf => (h.granted f r version hf).later hstep

/-- A flight asks: it begins a request. -/
lemma begins (h : Owned codec flights c)
    (hstep : c.step codec.decodeFrame (.begin r .handshake) = some c')
    (hf : ∀ second r', flights f ≠ .asking second r') (second : Bool) :
    Owned codec (Function.update flights f (.asking second r)) c' := by
  obtain ⟨hidle,he⟩ := Option.ite_none_right_eq_some.mp hstep
  have hself : (c'.requests r).kind = .handshake ∧ (c'.requests r).phase = .begun := by
    cases he
    rw [Client.setRequest_self]
    exact ⟨rfl,rfl⟩
  have hother : ∀ r', r' ≠ r → c'.requests r' = c.requests r' := by
    intro r' hne
    cases he
    exact Client.setRequest_of_ne c _ hne
  refine ⟨?_,?_,?_⟩
  · refine (Function.forall_update_iff flights (fun _ φ => ∀ second r', φ = .asking second r' →
      (c'.requests r').kind = .handshake ∧ (c'.requests r').phase ≠ .idle)).mpr ⟨?_,?_⟩
    · intro second' r' he
      cases he
      exact ⟨hself.1,by rw [hself.2]; simp⟩
    · intro g _ second' r' hg
      obtain ⟨hkind,hne⟩ := h.asked g second' r' hg
      have hr : r' ≠ r := by
        rintro rfl
        exact hne hidle
      rw [hother r' hr]
      exact ⟨hkind,hne⟩
  · intro r' hkind hne hret
    by_cases hr : r' = r
    · subst hr
      exact ⟨f,second,Function.update_self _ _ _⟩
    · rw [hother r' hr] at hkind hne hret
      obtain ⟨g,second',hg⟩ := h.owner r' hkind hne hret
      have hgf : g ≠ f := by
        rintro rfl
        exact hf second' r' hg
      exact ⟨g,second',by rw [Function.update_of_ne hgf]; exact hg⟩
  · refine (Function.forall_update_iff flights (fun _ φ => ∀ r' version, φ = .accepted r' version ∨
      φ = .notifying r' version →
      Granted codec c' r' version)).mpr ⟨?_,
        fun g _ r' version hg => (h.granted g r' version hg).later hstep⟩
    rintro r' version (he | he) <;> cases he

/-- A flight that does not wait for its request goes on. -/
lemma advance (h : Owned codec flights c) {flight : Flight}
    (hold : ∀ second r, flights f = .asking second r →
      ∃ o, (c.requests r).phase = .returned o) (hnew : ∀ second r, flight ≠ .asking second r)
    (hgranted : ∀ r version, flight = .accepted r version ∨ flight = .notifying r version →
      Granted codec c r version) :
    Owned codec (Function.update flights f flight) c := by
  refine ⟨?_,?_,?_⟩
  · exact (Function.forall_update_iff flights (fun _ φ => ∀ second r, φ = .asking second r →
      (c.requests r).kind = .handshake ∧ (c.requests r).phase ≠ .idle)).mpr
      ⟨fun second r he => absurd he (hnew second r),fun g _ => h.asked g⟩
  · intro r hkind hne hret
    obtain ⟨g,second,hg⟩ := h.owner r hkind hne hret
    have hgf : g ≠ f := by
      rintro rfl
      obtain ⟨o,ho⟩ := hold second r hg
      exact hret o ho
    exact ⟨g,second,by rw [Function.update_of_ne hgf]; exact hg⟩
  · exact (Function.forall_update_iff flights (fun _ φ => ∀ r version, φ = .accepted r version ∨
      φ = .notifying r version →
      Granted codec c r version)).mpr ⟨hgranted,fun g _ => h.granted g⟩

end Owned
end owned

/-- What a flight makes of the end of its request. -/
lemma conclude_cases (codec : Codec) (second : Bool) (r : ℕ) (o : Outcome) :
    (∃ reason, o = .replied (.synthetic reason) ∧ codec.conclude second r o = .concluded .fatal) ∨
    (∃ resp, o = .replied (.server resp) ∧ resp.error ≠ none ∧
      (codec.conclude second r o = .concluded .failed ∨
      ∃ version, codec.conclude second r o = .starting true version)) ∨
    (∃ resp, o = .replied (.server resp) ∧ resp.error = none ∧
      (codec.conclude second r o = .concluded .fatal ∨
      ∃ version, version ∈ handshakeVersions ∧ codec.conclude second r o = .accepted r version ∧
        (if resp.result = [] then some "" else codec.version resp.result) = some version)) ∨
    ((∀ reply, o ≠ .replied reply) ∧ codec.conclude second r o = .concluded .failed) := by
  cases o with
  | replied reply =>
    cases reply with
    | synthetic reason => exact .inl ⟨reason,rfl,rfl⟩
    | server resp =>
      right
      unfold Codec.conclude
      dsimp only
      cases herr : resp.error with
      | some err =>
        refine .inl ⟨resp,rfl,by rw [herr]; simp,?_⟩
        dsimp only
        split_ifs
        · exact .inl rfl
        · split
          · exact .inr ⟨_,rfl⟩
          · exact .inl rfl
      | none =>
        refine .inr (.inl ⟨resp,rfl,herr,?_⟩)
        dsimp only
        split
        · exact .inl rfl
        · rename_i version hversion
          by_cases hmem : version ∈ handshakeVersions
          · rw [if_pos hmem]
            exact .inr ⟨version,hmem,rfl,hversion⟩
          · rw [if_neg hmem]
            exact .inl rfl
  | sendFailed err => exact .inr (.inr (.inr ⟨by simp,rfl⟩))
  | ctxEnded => exact .inr (.inr (.inr ⟨by simp,rfl⟩))
  | serverExited => exact .inr (.inr (.inr ⟨by simp,rfl⟩))
  | aborted => exact .inr (.inr (.inr ⟨by simp,rfl⟩))
  | cut => exact .inr (.inr (.inr ⟨by simp,rfl⟩))

/-- What a step of the session does to its flights: nothing, a new request of one, or one goes on
that waits for none or whose request has returned. -/
lemma step_flights (h : s.step codec b = some s') : (s'.flights = s.flights ∧ ∀ f r, b ≠ .ask f r) ∨
    (∃ f r second version, b = .ask f r ∧ s.flights f = .starting second version ∧
      s'.flights = Function.update s.flights f (.asking second r)) ∨
    (∃ f second r o, b = .conclude f ∧ s.flights f = .asking second r ∧
      (s.client.requests r).phase = .returned o ∧
      s'.flights = Function.update s.flights f (codec.conclude second r o)) ∨
    (∃ f flight, s'.flights = Function.update s.flights f flight ∧
      (∀ second r, s.flights f ≠ .asking second r) ∧
      (∀ second r, flight ≠ .asking second r) ∧ (∀ r version, flight ≠ .accepted r version) ∧
      (∀ r version, flight = .notifying r version → s.flights f = .accepted r version) ∧ ∀ f r,
      b ≠ .ask f r) := by
  cases b with
  | client a =>
    obtain ⟨_,c,_,rfl⟩ := step_client h
    exact .inl ⟨rfl,by simp⟩
  | enter k f =>
    obtain ⟨_,h⟩ := Option.ite_none_right_eq_some.mp h
    unfold Session.enter at h
    split at h
    · cases h
      exact .inl ⟨rfl,by simp⟩
    · by_cases hfatal : s.initFatal = true
      · rw [if_pos hfatal] at h
        cases h
        exact .inl ⟨rfl,by simp⟩
      · rw [if_neg hfatal] at h
        split at h
        · cases h
          exact .inl ⟨rfl,by simp⟩
        · obtain ⟨hunborn,he⟩ := Option.ite_none_right_eq_some.mp h
          cases he
          exact .inr (.inr (.inr ⟨f,_,rfl,by simp [hunborn],by simp,by simp,by simp,by simp⟩))
  | ask f r =>
    dsimp only [Session.step] at h
    split at h
    · rename_i second version hold
      obtain ⟨c,_,rfl⟩ := Option.map_eq_some_iff.mp h
      exact .inr (.inl ⟨f,r,second,version,rfl,hold,rfl⟩)
    · cases h
  | conclude f =>
    dsimp only [Session.step] at h
    split at h
    · rename_i second r hold
      split at h
      · rename_i o ho
        cases h
        exact .inr (.inr (.inl ⟨f,second,r,o,rfl,hold,ho,rfl⟩))
      · cases h
    · cases h
  | checkNotify f =>
    dsimp only [Session.step] at h
    split at h
    · rename_i r version hold
      cases h
      refine .inr (.inr (.inr ⟨f,_,rfl,by simp [hold],?_,?_,?_,by simp⟩))
      · intro second r'
        split_ifs <;> simp
      · intro r' version'
        split_ifs <;> simp
      · intro r' version' he
        split_ifs at he
        cases he
        exact hold
    · cases h
  | notify f w =>
    dsimp only [Session.step] at h
    split at h
    · rename_i r version hold
      cases h
      exact .inr (.inr (.inr ⟨f,_,rfl,by simp [hold],by simp,by simp,by simp,by simp⟩))
    · cases h
  | publish f =>
    dsimp only [Session.step] at h
    split at h
    · rename_i e hold
      cases h
      exact .inr (.inr (.inr ⟨f,_,rfl,by simp [hold],by simp,by simp,by simp,by simp⟩))
    · cases h
  | finish f =>
    dsimp only [Session.step] at h
    split at h
    · rename_i e hold
      cases h
      exact .inr (.inr (.inr ⟨f,_,rfl,by simp [hold],by simp,by simp,by simp,by simp⟩))
    · cases h
  | wake k =>
    dsimp only [Session.step] at h
    split at h
    · split at h
      · cases h
        exact .inl ⟨rfl,by simp⟩
      · cases h
        exact .inl ⟨rfl,by simp⟩
      · cases h
    · cases h
  | leave k =>
    dsimp only [Session.step] at h
    split at h
    · cases h
      exact .inl ⟨rfl,by simp⟩
    · cases h
  | call k r =>
    dsimp only [Session.step] at h
    split at h
    · obtain ⟨c,_,rfl⟩ := Option.map_eq_some_iff.mp h
      exact .inl ⟨rfl,by simp⟩
    · cases h

lemma Owned.inner {flights : ℕ → Flight} (h : Owned codec flights s.client)
    (hstep : s.step codec b = some s')
    (hno : ∀ f r, b ≠ .ask f r) : Owned codec flights s'.client := by
  obtain ⟨hclient,-⟩ | ⟨a,ha,-,hbegin,-⟩ := step_inner hstep
  · rw [hclient]
    exact h
  · refine h.client ha (fun r hr => ?_)
    obtain ⟨f,hf⟩ := hbegin r hr
    exact hno f r hf

lemma Owned.step (hr : Record codec s) (h : Owned codec s.flights s.client)
    (hstep : s.step codec b = some s') :
    Owned codec s'.flights s'.client := by
  obtain ⟨hflights,hno⟩ | ⟨f,r,second,version,rfl,hold,hflights⟩
    | ⟨f,second,r,o,rfl,hold,ho,hflights⟩ |
    ⟨f,flight,hflights,hold,hnew,hacc,hnot,hno⟩ := step_flights hstep
  · rw [hflights]
    exact h.inner hstep hno
  · rw [hflights]
    dsimp only [Session.step] at hstep
    rw [hold] at hstep
    obtain ⟨c,hc,rfl⟩ := Option.map_eq_some_iff.mp hstep
    exact h.begins hc (by simp [hold]) second
  · have hkind := (h.asked f second r hold).1
    rw [hflights]
    refine Owned.inner ?_ hstep (by simp)
    refine h.advance ?_ ?_ ?_
    · intro second' r' hr'
      rw [hold] at hr'
      cases hr'
      exact ⟨o,ho⟩
    · intro second' r'
      obtain ⟨_,_,he⟩ | ⟨_,_,_,he | ⟨_,he⟩⟩ | ⟨_,_,_,he | ⟨_,_,he,_⟩⟩ | ⟨_,he⟩ :=
        conclude_cases codec second r o
      all_goals rw [he]; simp
    · intro r' version' hv
      obtain ⟨_,_,he⟩ | ⟨_,_,_,he | ⟨_,he⟩⟩ | ⟨resp,rfl,herr,he | ⟨version,hmem,he,hversion⟩⟩
        | ⟨_,he⟩ := conclude_cases codec second r o
      all_goals rw [he] at hv
      all_goals try (obtain hv | hv := hv <;> cases hv)
      exact ⟨hmem,hkind,resp,ho,herr,hr.sound.answer r resp (by rw [ho]; rfl),hversion⟩
  · rw [hflights]
    refine Owned.inner ?_ hstep hno
    refine h.advance (fun second r hf => absurd hf (hold second r)) hnew ?_
    rintro r version (he | he)
    · exact absurd he (hacc r version)
    · exact h.granted f r version (.inl (hnot r version he))

end session
end Manvi.Mcp
