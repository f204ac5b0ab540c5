import Manvi.Mcp.HandshakeOrder

/-! One handshake in a session: when an initialize request is written, what the server is told, and
what waits for that. -/
namespace Manvi.Mcp
open Manvi.Encoding

/-- Every initialize request that was written has been refused. -/
def Settled (codec : Codec) (s : Session) : Prop := ∀ r ∈ s.written, Refused codec s.client r

/-- Every initialize request that was written has been refused, but perhaps for one. -/
def SettledBut (codec : Codec) (s : Session) (r : ℕ) : Prop :=
  ∀ r' ∈ s.written, r' = r ∨ Refused codec s.client r'

/-- The connection is closed, or its requests were flushed. -/
def Over (c : Client) : Prop := c.closed = true ∨ Past c

/-- What the checks before a request tell about the initialize requests before it. -/
def Clears (codec : Codec) (s : Session) (r : ℕ) : Phase → Prop
  | .idle | .begun => SettledBut codec s r ∨ Over s.client
  | .opened => SettledBut codec s r ∨ Past s.client
  | .returned (.sendFailed .closedClient) | .returned (.sendFailed .exited) => True
  | _ => SettledBut codec s r

/-- Where another handshake may begin, the initialize requests before it were refused or the
connection is over. -/
structure Orderly (codec : Codec) (s : Session) : Prop where
  free : s.initFlight = none → s.initResult = none → s.initFatal = false → Settled codec s ∨
    Over s.client
  starting : ∀ f second version, s.flights f = .starting second version → Settled codec s ∨
    Over s.client
  failed : ∀ f, s.flights f = .concluded .failed → Settled codec s ∨ Over s.client
  asking : ∀ f second r, s.flights f = .asking second r →
    Clears codec s r (s.client.requests r).phase

/-- No initialize request passes the check that the server lives between the flush of the requests
at the end of the stream and the signal of that end, unless those before it were refused. -/
def Careful (codec : Codec) (s : Session) (b : SessionAction) : Prop :=
  ∀ r, b = .client (.move r .checkDone) → (s.client.requests r).kind = .handshake →
  s.client.reader = .flushed → Settled codec s

def CarefulRun (codec : Codec) : Session → List SessionAction → Prop
  | _,[] => True
  | s,b :: bs => Careful codec s b ∧ ∀ s', s.step codec b = some s' → CarefulRun codec s' bs

section orderly
variable {codec : Codec} {s s' : Session} {b : SessionAction} {f r : ℕ}

lemma Settled.but (h : Settled codec s) (r : ℕ) : SettledBut codec s r :=
    fun r' hr' => .inr (h r' hr')

lemma SettledBut.clears (h : SettledBut codec s r) (p : Phase) : Clears codec s r p := by
  unfold Clears
  split
  · exact .inl h
  · exact .inl h
  · exact .inl h
  · trivial
  · trivial
  · exact h

lemma Orderly.start (codec : Codec) : Orderly codec Session.start where
  free := fun _ _ _ => .inl (fun _ hr => by cases hr)
  starting := fun _ _ _ h => by cases h
  failed := fun _ h => by cases h
  asking := fun _ _ _ h => by cases h

lemma Over.later {c c' : Client} (h : Over c) (hl : Later c c') : Over c' := h.imp hl.closed hl.past

section inner
variable {a : Action} {c' : Client}

/-- A step of the client that writes no initialize request keeps what was settled. -/
lemma Settled.inner (h : Settled codec s) (hstep : s.client.step codec.decodeFrame a = some c')
    (hno : ∀ r, a.writes = some r → (s.client.requests r).kind ≠ .handshake) :
    Settled codec { s with client := c', written := s.writtenBy a } := by
  intro r hr
  obtain hr | ⟨hw,hk⟩ := (mem_writtenBy s a r).mp hr
  · exact (h r hr).later hstep
  · exact absurd hk (hno r hw)

lemma SettledBut.inner (h : SettledBut codec s r)
    (hstep : s.client.step codec.decodeFrame a = some c')
    (hno : ∀ r', a.writes = some r' → (s.client.requests r').kind = .handshake → r' = r) :
    SettledBut codec { s with client := c', written := s.writtenBy a } r := by
  intro r' hr'
  obtain hr' | ⟨hw,hk⟩ := (mem_writtenBy s a r').mp hr'
  · exact (h r' hr').imp_right (fun hrefused => hrefused.later hstep)
  · exact .inl (hno r' hw hk)

/-- A request is written once it is registered. -/
lemma writes_registered {c : Client} (hstep : c.step codec.decodeFrame a = some c')
    (hw : a.writes = some r) :
    (c.requests r).phase = .registered := by
  obtain rfl | rfl := writes_eq_some hw
  · obtain ⟨q,hmove,-⟩ := Option.map_eq_some_iff.mp hstep
    exact (Option.ite_none_right_eq_some.mp hmove).1
  · obtain ⟨q,hmove,-⟩ := Option.map_eq_some_iff.mp hstep
    exact (Option.ite_none_right_eq_some.mp hmove).1

/-- The request that an initialize write belongs to is asked by a flight, and those before it are
settled. -/
lemma Orderly.at_write (ho : Owned codec s.flights s.client) (h : Orderly codec s)
    (hstep : s.client.step codec.decodeFrame a = some c') (hw : a.writes = some r)
    (hk : (s.client.requests r).kind = .handshake) :
    ∃ f second, s.flights f = .asking second r ∧ (s.client.requests r).phase = .registered ∧
    SettledBut codec s r := by
  have hreg := writes_registered hstep hw
  obtain ⟨f,second,hf⟩ := ho.owner r hk (by rw [hreg]; simp) (by rw [hreg]; simp)
  have hclears := h.asking f second r hf
  rw [hreg] at hclears
  exact ⟨f,second,hf,hreg,hclears⟩

/-- What the checks tell is kept when the request goes on. -/
lemma Clears.inner (h : Clears codec s r (s.client.requests r).phase)
    (hidle : (s.client.requests r).phase ≠ .idle)
    (hk : (s.client.requests r).kind = .handshake)
    (hstep : s.client.step codec.decodeFrame a = some c')
    (hno : ∀ r', a.writes = some r' → (s.client.requests r').kind ≠ .handshake)
    (hcareful : a = .move r .checkDone → s.client.reader = .flushed → Settled codec s) :
    Clears codec { s with client := c', written := s.writtenBy a } r (c'.requests r).phase := by
  have hl := step_later hstep
  have hbut : SettledBut codec s r → ∀ p,
    Clears codec { s with client := c', written := s.writtenBy a } r p :=
    fun hs => (hs.inner hstep (fun r' hw hk' => absurd hk' (hno r' hw))).clears
  have hsettled : SettledBut codec s r → SettledBut codec { s with
    client := c', written := s.writtenBy a } r :=
    fun hs => hs.inner hstep (fun r' hw hk' => absurd hk' (hno r' hw))
  have hstay : ∀ {p}, Clears codec s r p →
    Clears codec { s with client := c', written := s.writtenBy a } r p := by
    intro p
    unfold Clears
    split
    · exact fun h => h.imp hsettled (fun h => h.later hl)
    · exact fun h => h.imp hsettled (fun h => h.later hl)
    · exact fun h => h.imp hsettled hl.past
    · exact id
    · exact id
    · exact hsettled
  cases step_goes hstep r with
  | same hphase _ _ _ =>
    rw [hphase]
    exact hstay h
  | turns m ha hturn _ _ =>
    subst ha
    generalize (s.client.requests r).phase = p at h hturn hidle
    generalize (c'.requests r).phase = p' at hturn
    cases hturn with
    | ctx _ => exact hstay h
    | shut _ => trivial
    | opens hopen =>
      refine (show SettledBut codec s r ∨ Over s.client from h).imp hsettled (fun hover =>
        hl.past ?_)
      obtain hclosed | hpast := hover
      · rw [hclosed] at hopen
        cases hopen
      · exact hpast
    | gone _ => trivial
    | lives hdone =>
      obtain hs | hpast := (show SettledBut codec s r ∨ Past s.client from h)
      · exact hsettled hs
      · obtain hflushed | hfinished := hpast
        · exact hsettled ((hcareful rfl hflushed).but r)
        · rw [hfinished] at hdone
          simp at hdone
    | unencoded => exact hbut h _
    | sent => exact absurd hk (hno r rfl)
    | unsent => exact hbut h _
    | unsure => exact absurd hk (hno r rfl)
    | ended _ => exact hbut h _
    | late => exact hbut h _
    | aborts _ => exact hbut h _
  | begins kind _ hi _ _ => exact absurd hi hidle
  | numbers hp _ _ _ =>
    rw [hp] at h
    exact hbut h _
  | registers hp _ _ _ _ =>
    rw [hp] at h
    exact hbut h _
  | returns o hp _ _ _ _ =>
    obtain hp | ⟨hp,_⟩ := hp
    · rw [hp] at h
      exact hbut h _
    · rw [hp] at h
      exact hbut h _

/-- The client goes on under the same flights. -/
lemma Orderly.inner (hc : Course s) (ho : Owned codec s.flights s.client) (h : Orderly codec s)
    (hstep : s.client.step codec.decodeFrame a = some c')
    (hcareful : ∀ r, a = .move r .checkDone → (s.client.requests r).kind = .handshake →
      s.client.reader = .flushed → Settled codec s) :
    Orderly codec { s with client := c', written := s.writtenBy a } := by
  have hl := step_later hstep
  by_cases hwrites : ∃ r, a.writes = some r ∧ (s.client.requests r).kind = .handshake
  · obtain ⟨r,hw,hk⟩ := hwrites
    obtain ⟨f,second,hf,hreg,hbut⟩ := h.at_write ho hstep hw hk
    have hactive : (s.flights f).active = true := by
      rw [hf]
      rfl
    have hsole : ∀ g, (s.flights g).active = true → g = f :=
      fun g hg => hc.at_flight hactive g (hc.other g hg)
    refine ⟨?_,?_,?_,?_⟩
    · intro hnone
      have hno : s.initFlight = none := hnone
      rw [hc.other f hactive] at hno
      cases hno
    · intro g second' version hg
      have hg' : s.flights g = .starting second' version := hg
      have := hsole g (by rw [hg']; rfl)
      rw [this,hf] at hg'
      cases hg'
    · intro g hg
      have hg' : s.flights g = .concluded .failed := hg
      have := hsole g (by rw [hg']; rfl)
      rw [this,hf] at hg'
      cases hg'
    · intro g second' r' hg
      have hg' : s.flights g = .asking second' r' := hg
      have := hsole g (by rw [hg']; rfl)
      rw [this,hf] at hg'
      cases hg'
      refine SettledBut.clears (hbut.inner hstep ?_) _
      intro r' hw' _
      rw [hw] at hw'
      exact (Option.some.inj hw').symm
  · have hno : ∀ r, a.writes = some r → (s.client.requests r).kind ≠ .handshake :=
      fun r hw hk => hwrites ⟨r,hw,hk⟩
    have hkeep : Settled codec s ∨ Over s.client →
        Settled codec { s with client := c', written := s.writtenBy a } ∨ Over c' :=
      fun hs => hs.imp (fun hs => hs.inner hstep hno) (fun hover => hover.later hl)
    refine ⟨?_,?_,?_,?_⟩
    · exact fun h1 h2 h3 => hkeep (h.free h1 h2 h3)
    · exact fun g second version hg => hkeep (h.starting g second version hg)
    · exact fun g hg => hkeep (h.failed g hg)
    · intro g second r hg
      obtain ⟨hk,hidle⟩ := ho.asked g second r hg
      exact (h.asking g second r hg).inner hidle hk hstep hno (fun ha => hcareful r ha hk)

end inner

section flights
variable {flight : Flight}

/-- A flight goes on. -/
lemma Orderly.setFlight (h : Orderly codec s)
    (hstarting : ∀ second version, flight = .starting second version →
      Settled codec s ∨ Over s.client) (hfailed : flight = .concluded .failed → Settled codec s ∨
        Over s.client)
    (hasking : ∀ second r, flight = .asking second r →
      Clears codec s r (s.client.requests r).phase) :
    Orderly codec (s.setFlight f flight) := by
  refine ⟨h.free,?_,?_,?_⟩
  · exact (Function.forall_update_iff s.flights (fun _ φ => ∀ second version,
      φ = .starting second version →
      Settled codec s ∨ Over s.client)).mpr ⟨hstarting,fun g _ => h.starting g⟩
  · exact (Function.forall_update_iff s.flights (fun _ φ => φ = .concluded .failed →
      Settled codec s ∨ Over s.client)).mpr
      ⟨hfailed,fun g _ => h.failed g⟩
  · exact (Function.forall_update_iff s.flights (fun _ φ => ∀ second r, φ = .asking second r →
      Clears codec s r (s.client.requests r).phase)).mpr ⟨hasking,fun g _ => h.asking g⟩

/-- A flight goes on to something that no handshake begins from. -/
lemma Orderly.settle (h : Orderly codec s)
    (hstarting : ∀ second version, flight ≠ .starting second version)
    (hfailed : flight ≠ .concluded .failed) (hasking : ∀ second r, flight ≠ .asking second r) :
    Orderly codec (s.setFlight f flight) :=
  h.setFlight (fun second version he => absurd he (hstarting second version)) (fun he =>
    absurd he hfailed)
    (fun second r he => absurd he (hasking second r))

lemma Orderly.concluded (h : Orderly codec s) (f : ℕ) (e : FlightEnd) (he : e ≠ .failed) :
    Orderly codec (s.setFlight f (.concluded e)) :=
  h.settle (by simp) (by simpa using he) (by simp)

/-- A request that ended without a reply to a flight: it is over, or nothing before it is open. -/
lemma settled_of_unanswered (hr : Record codec s) (hk : (s.client.requests r).kind = .handshake)
    {o : Outcome}
    (ho : (s.client.requests r).phase = .returned o) (hclears : Clears codec s r (.returned o))
    (hno : ∀ reply, o ≠ .replied reply) :
    Settled codec s ∨ Over s.client := by
  have hend := hr.ends.ends r o (.inr ho)
  have hunsent : o.delivered = false → SettledBut codec s r → Settled codec s := by
    intro hdel hbut r' hr'
    refine (hbut r' hr').resolve_left ?_
    rintro rfl
    have hdelivered := ((hr.written r').mp hr').2
    rw [ho] at hdelivered
    rw [show Phase.delivered (.returned o) = o.delivered from rfl,hdel] at hdelivered
    cases hdelivered
  cases o with
  | replied reply => exact absurd rfl (hno reply)
  | sendFailed err =>
    cases err with
    | closedClient => exact .inr (.inl hend)
    | exited => exact .inr (.inr (.inr hend))
    | encoding => exact .inl (hunsent rfl hclears)
    | writing => exact .inl (hunsent rfl hclears)
    | uncertain => exact .inr (.inl hend)
  | ctxEnded =>
    rw [show (s.client.requests r).kind = .call from hend] at hk
    cases hk
  | serverExited => exact .inr (.inr (.inr hend))
  | aborted => exact .inr (.inl hend)
  | cut => exact .inr (.inr hend)

/-- A flight makes something of the end of its request. -/
lemma Orderly.conclude (hr : Record codec s) (ho : Owned codec s.flights s.client)
    (h : Orderly codec s) {second : Bool}
    (hold : s.flights f = .asking second r) {o : Outcome}
    (hret : (s.client.requests r).phase = .returned o) :
    Orderly codec (s.setFlight f (codec.conclude second r o)) := by
  have hclears := h.asking f second r hold
  rw [hret] at hclears
  obtain ⟨_,_,he⟩ | ⟨resp,rfl,herr,he⟩ | ⟨_,_,_,he | ⟨_,_,he,_⟩⟩ | ⟨hno,he⟩ :=
    conclude_cases codec second r o
  · rw [he]
    exact h.settle (by simp) (by simp) (by simp)
  · have hrefused : Refused codec s.client r :=
      ⟨resp,hret,herr,hr.sound.answer r resp (by rw [hret]; rfl)⟩
    have hsettled : Settled codec s := by
      intro r' hr'
      obtain rfl | hother := (show SettledBut codec s r from hclears) r' hr'
      · exact hrefused
      · exact hother
    obtain he | ⟨version,he⟩ := he
    · rw [he]
      exact h.setFlight (by simp) (fun _ => .inl hsettled) (by simp)
    · rw [he]
      exact h.setFlight (fun _ _ _ => .inl hsettled) (by simp) (by simp)
  · rw [he]
    exact h.settle (by simp) (by simp) (by simp)
  · rw [he]
    exact h.settle (by simp) (by simp) (by simp)
  · rw [he]
    have hsettled := settled_of_unanswered hr (ho.asked f second r hold).1 hret hclears hno
    exact h.setFlight (by simp) (fun _ => hsettled) (by simp)

/-- A flight hands out its end. -/
lemma Orderly.publish (h : Orderly codec s) {e : FlightEnd} (hold : s.flights f = .concluded e) :
    Orderly codec (s.publish f e) := by
  have hflights : Orderly codec (s.setFlight f (.published e)) :=
    h.settle (by simp) (by simp) (by simp)
  refine ⟨?_,hflights.starting,hflights.failed,hflights.asking⟩
  intro _ hresult hfatal
  cases e with
  | ok version => cases hresult
  | failed => exact h.failed f hold
  | fatal => simp [Session.publish] at hfatal

end flights

lemma Orderly.step (hc : Course s) (hr : Record codec s) (ho : Owned codec s.flights s.client)
    (h : Orderly codec s)
    (hstep : s.step codec b = some s') (hcareful : Careful codec s b) : Orderly codec s' := by
  cases b with
  | client a =>
    obtain ⟨_,c,hc',rfl⟩ := step_client hstep
    exact h.inner hc ho hc' (fun r ha => hcareful r (by rw [ha]))
  | enter k f =>
    obtain ⟨_,hstep⟩ := Option.ite_none_right_eq_some.mp hstep
    obtain ⟨caller,rfl,_⟩ | ⟨hresult,hfatal,hnone,rfl⟩ := enter_cases hstep
    · exact ⟨h.free,h.starting,h.failed,h.asking⟩
    · have hstart : Orderly codec (s.setFlight f (.starting false protocolVersionLatest)) :=
        h.setFlight (fun _ _ _ => h.free hnone hresult hfatal) (by simp) (by simp)
      exact ⟨fun hn => (by cases hn),hstart.starting,hstart.failed,hstart.asking⟩
  | ask f r =>
    dsimp only [Session.step] at hstep
    split at hstep
    · rename_i second version hold
      obtain ⟨c,hbegin,rfl⟩ := Option.map_eq_some_iff.mp hstep
      have hinner := h.inner hc ho hbegin (fun _ he => (by cases he))
      have hphase : (c.requests r).phase = .begun := by
        obtain ⟨_,he⟩ := Option.ite_none_right_eq_some.mp hbegin
        cases he
        rw [Client.setRequest_self]
      refine hinner.setFlight (by simp) (by simp) ?_
      intro second' r' he
      cases he
      rw [hphase]
      exact (hinner.starting f second version hold).imp_left (fun hs => hs.but r)
    · cases hstep
  | conclude f =>
    dsimp only [Session.step] at hstep
    split at hstep
    · rename_i second r hold
      split at hstep
      · rename_i o hret
        cases hstep
        exact h.conclude hr ho hold hret
      · cases hstep
    · cases hstep
  | checkNotify f =>
    dsimp only [Session.step] at hstep
    split at hstep
    · cases hstep
      refine h.settle ?_ ?_ ?_
      · intro second version
        split_ifs <;> simp
      · split_ifs <;> simp
      · intro second r
        split_ifs <;> simp
    · cases hstep
  | notify f w =>
    dsimp only [Session.step] at hstep
    split at hstep
    · rename_i r version hold
      cases hstep
      have hclient : Orderly codec { s with
        client := { s.client with closed := s.client.closed || w = .uncertain } } := by
        by_cases hw : w = .uncertain
        · have hclose := h.inner (a := .close) hc ho rfl (fun _ he => (by cases he))
          simp only [hw,decide_true,Bool.or_true]
          exact hclose
        · simpa only [hw,decide_false,Bool.or_false] using h
      have hflight := hclient.concluded f (if w = .ok then
        .ok version else .fatal) (by split_ifs <;> simp)
      exact ⟨hflight.free,hflight.starting,hflight.failed,hflight.asking⟩
    · cases hstep
  | publish f =>
    dsimp only [Session.step] at hstep
    split at hstep
    · rename_i e hold
      cases hstep
      exact h.publish hold
    · cases hstep
  | finish f =>
    dsimp only [Session.step] at hstep
    split at hstep
    · cases hstep
      exact h.settle (by simp) (by simp) (by simp)
    · cases hstep
  | wake k =>
    dsimp only [Session.step] at hstep
    split at hstep
    · split at hstep
      · cases hstep
        exact ⟨h.free,h.starting,h.failed,h.asking⟩
      · cases hstep
        exact ⟨h.free,h.starting,h.failed,h.asking⟩
      · cases hstep
    · cases hstep
  | leave k =>
    dsimp only [Session.step] at hstep
    split at hstep
    · cases hstep
      exact ⟨h.free,h.starting,h.failed,h.asking⟩
    · cases hstep
  | call k r =>
    dsimp only [Session.step] at hstep
    split at hstep
    · obtain ⟨c,hbegin,rfl⟩ := Option.map_eq_some_iff.mp hstep
      have hinner := h.inner hc ho hbegin (fun _ he => (by cases he))
      exact ⟨hinner.free,hinner.starting,hinner.failed,hinner.asking⟩
    · cases hstep

end orderly

section runs
variable {codec : Codec} {s t t' : Session} {b : SessionAction}

/-- What holds of a session in every run. -/
structure Sessional (codec : Codec) (s : Session) : Prop where
  course : Course s
  record : Record codec s
  owned : Owned codec s.flights s.client

lemma Sessional.start (codec : Codec) : Sessional codec Session.start :=
    ⟨Course.start,Record.start codec,Owned.start codec⟩

lemma Sessional.step (h : Sessional codec s) (hstep : s.step codec b = some t) :
    Sessional codec t :=
  ⟨h.course.step hstep,h.record.step hstep,h.owned.step h.record hstep⟩

lemma Sessional.run {bs : List SessionAction} (h : Sessional codec s)
    (hrun : s.run codec bs = some t) : Sessional codec t := by
  induction bs generalizing s with
  | nil =>
    cases hrun
    exact h
  | cons b bs ih =>
    obtain ⟨s',hstep,hrest⟩ := Option.bind_eq_some_iff.mp hrun
    exact ih (h.step hstep) hrest

lemma Orderly.run {bs : List SessionAction} (hs : Sessional codec s) (h : Orderly codec s)
    (hcareful : CarefulRun codec s bs)
    (hrun : s.run codec bs = some t) : Orderly codec t := by
  induction bs generalizing s with
  | nil =>
    cases hrun
    exact h
  | cons b bs ih =>
    obtain ⟨s',hstep,hrest⟩ := Option.bind_eq_some_iff.mp hrun
    exact ih (hs.step hstep) (h.step hs.course hs.record hs.owned hstep hcareful.1)
      (hcareful.2 s' hstep) hrest

/-- The request that a step of the session writes to the server. -/
def SessionAction.writes : SessionAction → Option ℕ
  | .client a => a.writes
  | _ => none

/-- A step of a session with one handshake: an initialize request is written only when those before
it were refused and no handshake has ended for good, the server is notified once and after it
granted a session, and the requests of callers come after that. -/
structure OneHandshake (codec : Codec) (s : Session) (b : SessionAction) (s' : Session) : Prop where
  refused : ∀ r, b.writes = some r → (s.client.requests r).kind = .handshake → ∀ r' ∈ s.written,
    Refused codec s.client r'
  terminal : ∀ r, b.writes = some r → (s.client.requests r).kind = .handshake →
    ∀ f e, s.flights f = .concluded e ∨ s.flights f = .published e ∨ s.flights f = .done e →
    e = .failed
  once : s'.notified ≤ 1
  granted : s'.notified ≠ s.notified → ∃ r version,
    (∃ f w, b = .notify f w ∧ s.flights f = .notifying r version) ∧
    Granted codec s.client r version
  tools : ∀ r ∈ s.tools, b.writes = some r → s.notified = 1

/-- The request of an initialize write is asked by the flight that is under way. -/
lemma Sessional.writer (h : Sessional codec s) (hstep : s.step codec b = some t) {r : ℕ}
    (hw : b.writes = some r)
    (hk : (s.client.requests r).kind = .handshake) :
    ∃ f second, s.flights f = .asking second r ∧ (s.client.requests r).phase = .registered := by
  cases b with
  | client a =>
    obtain ⟨_,c,hc,-⟩ := step_client hstep
    have hreg := writes_registered hc hw
    obtain ⟨f,second,hf⟩ := h.owned.owner r hk (by rw [hreg]; simp) (by rw [hreg]; simp)
    exact ⟨f,second,hf,hreg⟩
  | _ => cases hw

/-- A handshake that ended for good stops the others. -/
lemma Sessional.terminal (h : Sessional codec s) {f r : ℕ} {second : Bool}
    (hf : s.flights f = .asking second r) (g : ℕ)
    (e : FlightEnd) (hg : s.flights g = .concluded e ∨ s.flights g = .published e ∨
      s.flights g = .done e) : e = .failed := by
  have hactive : (s.flights f).active = true := by
    rw [hf]
    rfl
  obtain ⟨hresult,hfatal,-⟩ := h.course.flight f (h.course.other f hactive)
  obtain hg | hg := hg
  · have hsame := h.course.at_flight hactive g (h.course.other g (by rw [hg]; rfl))
    rw [hsame,hf] at hg
    cases hg
  · cases e with
    | ok version => exact absurd hresult (h.course.ok g version hg)
    | failed => rfl
    | fatal =>
      rw [h.course.fatal g hg] at hfatal
      cases hfatal

lemma notified_step (hstep : s.step codec b = some t) (hne : t.notified ≠ s.notified) :
    ∃ r version f w, b = .notify f w ∧ s.flights f = .notifying r version := by
  cases b with
  | client a =>
    obtain ⟨_,c,_,rfl⟩ := step_client hstep
    exact absurd rfl hne
  | enter k f =>
    obtain ⟨_,hstep⟩ := Option.ite_none_right_eq_some.mp hstep
    obtain ⟨caller,rfl,_⟩ | ⟨_,_,_,rfl⟩ := enter_cases hstep
    · exact absurd rfl hne
    · exact absurd rfl hne
  | notify f w =>
    dsimp only [Session.step] at hstep
    split at hstep
    · rename_i r version hold
      exact ⟨r,version,f,w,rfl,hold⟩
    · cases hstep
  | ask f r | call k r =>
    dsimp only [Session.step] at hstep
    split at hstep
    · obtain ⟨c,_,rfl⟩ := Option.map_eq_some_iff.mp hstep
      exact absurd rfl hne
    · cases hstep
  | conclude f | wake f =>
    dsimp only [Session.step] at hstep
    split at hstep
    · split at hstep
      all_goals cases hstep
      all_goals exact absurd rfl hne
    · cases hstep
  | checkNotify f | publish f | finish f | leave f =>
    dsimp only [Session.step] at hstep
    split at hstep
    · cases hstep
      exact absurd rfl hne
    · cases hstep

/-- In a run where no initialize request passes the check that the server lives between the flush at
the end of the stream and its signal, unless those before it were refused, a session has one
handshake. -/
theorem one_handshake {bs : List SessionAction} (hrun : Session.start.run codec bs = some t)
    (hcareful : CarefulRun codec Session.start bs) (hstep : t.step codec b = some t') :
    OneHandshake codec t b t' := by
  have hs := (Sessional.start codec).run hrun
  have horderly := (Orderly.start codec).run (Sessional.start codec) hcareful hrun
  refine ⟨?_,?_,(hs.step hstep).course.most,?_,?_⟩
  · intro r hw hk r' hr'
    obtain ⟨f,second,hf,hreg⟩ := hs.writer hstep hw hk
    have hclears := horderly.asking f second r hf
    rw [hreg] at hclears
    obtain rfl | hrefused := (show SettledBut codec t r from hclears) r' hr'
    · have hdelivered := ((hs.record.written r').mp hr').2
      rw [hreg] at hdelivered
      cases hdelivered
    · exact hrefused
  · intro r hw hk
    obtain ⟨f,second,hf,-⟩ := hs.writer hstep hw hk
    exact fun g e => hs.terminal hf g e
  · intro hne
    obtain ⟨r,version,f,w,rfl,hf⟩ := notified_step hstep hne
    exact ⟨r,version,⟨f,w,rfl,hf⟩,hs.owned.granted f r version (.inr hf)⟩
  · intro r hr _
    exact hs.course.tools (List.ne_nil_of_mem hr)

lemma read_unflushed {decodeFrame : Bytes → Decoded} {c : Client} (hc : c.reader ≠ .flushed)
    (item : Item) :
    (c.read decodeFrame item).reader ≠ .flushed := by
  unfold Client.read Client.dispatch Client.deliverTo Client.failAllPending
  cases item with
  | line bytes =>
    dsimp only
    split
    · exact hc
    · split
      · exact hc
      · exact hc
      · exact fun h => by cases h
      · split
        · exact hc
        · exact fun h => by cases h
  | tooLarge opening =>
    dsimp only
    split
    · exact fun h => by cases h
    · exact hc

lemma client_unflushed {decodeFrame : Bytes → Decoded} {c c' : Client} {a : Action}
    (h : c.step decodeFrame a = some c')
    (ha : a ≠ .flush) (hc : c.reader ≠ .flushed) : c'.reader ≠ .flushed := by
  cases a with
  | flush => exact (ha rfl).elim
  | read item =>
    obtain ⟨-,h⟩ := Option.ite_none_right_eq_some.mp h
    cases h
    exact read_unflushed hc item
  | close =>
    cases h
    exact hc
  | begin r kind | number r | register r =>
    obtain ⟨-,h⟩ := Option.ite_none_right_eq_some.mp h
    cases h
    exact hc
  | eof | finish =>
    obtain ⟨-,h⟩ := Option.ite_none_right_eq_some.mp h
    cases h
    exact fun h => by cases h
  | move r m =>
    obtain ⟨q,-,rfl⟩ := Option.map_eq_some_iff.mp h
    exact hc
  | receive r =>
    obtain ⟨-,h⟩ := Option.ite_none_right_eq_some.mp h
    obtain ⟨p,-,rfl⟩ := Option.map_eq_some_iff.mp h
    exact hc
  | deliver =>
    dsimp only [Client.step] at h
    split at h
    · obtain ⟨chan,-,rfl⟩ := Option.map_eq_some_iff.mp h
      exact fun h => by cases h
    · cases h
  | resume =>
    dsimp only [Client.step] at h
    split at h
    · cases h
      exact fun h => by cases h
    · cases h
  | forget r =>
    dsimp only [Client.step] at h
    split at h
    · cases h
      exact hc
    · cases h
  | fail r =>
    dsimp only [Client.step] at h
    split at h
    · obtain ⟨-,h⟩ := Option.ite_none_right_eq_some.mp h
      obtain ⟨chan,-,rfl⟩ := Option.map_eq_some_iff.mp h
      exact fun h => by cases h
    · cases h
lemma session_unflushed (hstep : s.step codec b = some t) (hb : b ≠ .client .flush)
    (hs : s.client.reader ≠ .flushed) :
    t.client.reader ≠ .flushed := by
  cases b with
  | client a =>
    obtain ⟨_,c,hc,rfl⟩ := step_client hstep
    exact client_unflushed hc (fun h => hb (by rw [h])) hs
  | enter k f =>
    obtain ⟨_,hstep⟩ := Option.ite_none_right_eq_some.mp hstep
    obtain ⟨caller,rfl,_⟩ | ⟨_,_,_,rfl⟩ := enter_cases hstep
    · exact hs
    · exact hs
  | ask f r | call k r =>
    dsimp only [Session.step] at hstep
    split at hstep
    · obtain ⟨c,hc,rfl⟩ := Option.map_eq_some_iff.mp hstep
      exact client_unflushed hc (fun h => by cases h) hs
    · cases hstep
  | conclude f | wake f =>
    dsimp only [Session.step] at hstep
    split at hstep
    · split at hstep
      all_goals cases hstep
      all_goals exact hs
    · cases hstep
  | checkNotify f | notify f w | publish f | finish f | leave f =>
    dsimp only [Session.step] at hstep
    split at hstep
    · cases hstep
      exact hs
    · cases hstep

/-- A run that flushes no requests is careful. -/
lemma carefulRun_unflushed {bs : List SessionAction} (hno : .client .flush ∉ bs)
    (hs : s.client.reader ≠ .flushed) :
    CarefulRun codec s bs := by
  induction bs generalizing s with
  | nil => trivial
  | cons b bs ih =>
    refine ⟨fun _ _ _ hflushed => (hs hflushed).elim,fun s' hstep => ?_⟩
    refine ih (fun hmem => hno (List.mem_cons_of_mem b hmem)) (session_unflushed hstep
      (fun h => hno ?_) hs)
    rw [h]
    exact List.mem_cons_self

/-- A server that refuses the request with the id 1, whatever its lines say. -/
def refusing : Codec :=
  ⟨fun _ => .frame ⟨"2.0",.number 1,[],some ⟨-32000,[],[]⟩⟩ "" true,fun _ => none,fun _ => none⟩

/-- The steps of a flight up to the write of its request. -/
def askedBy (k f r : ℕ) : List SessionAction :=
  [.enter k f,.ask f r,.client (.move r .checkClosed),.client (.move r .checkDone),
    .client (.number r),.client (.register r)]

/-- The first handshake is written and refused, its flight ends, and another asks again. -/
def refusedOnce : List SessionAction :=
  askedBy 0 0 0 ++ [.client (.move 0 (.write .ok)),.client (.read (.line [123])),
  .client .deliver,.client (.receive 0),.conclude 0,.publish 0] ++ askedBy 1 1 1

/-- The second handshake is written after the first was refused. -/
theorem second_handshake_written : ∃ t t', Session.start.run refusing refusedOnce = some t ∧
    t.written = [0] ∧
    t.step refusing (.client (.move 1 (.write .ok))) = some t' ∧ t'.written = [0,1] ∧
    OneHandshake refusing t (.client (.move 1 (.write .ok))) t' := by
  have hcareful : CarefulRun refusing Session.start refusedOnce :=
    carefulRun_unflushed (by decide) (by decide)
  exact ⟨_,_,rfl,rfl,rfl,rfl,one_handshake rfl hcareful rfl⟩

/-- A server that says nothing that can be decoded. -/
def mute : Codec := ⟨fun _ => .unreadable,fun _ => none,fun _ => none⟩

/-- The stream ends and the requests are flushed, but the end is not signalled: the first handshake
has failed, the server counts as alive, and a second request is written that the first does not
stop. -/
theorem second_handshake_unanswered :
    ∃ t t', Session.start.run mute (askedBy 0 0 0 ++ [.client (.move 0 (.write .ok)),
      .client .eof,.client .flush,.client (.receive 0),.conclude 0,.publish 0] ++
      askedBy 1 1 1) = some t ∧
    t.step mute (.client (.move 1 (.write .ok))) = some t' ∧
    ¬ OneHandshake mute t (.client (.move 1 (.write .ok))) t' := by
  refine ⟨_,_,rfl,rfl,fun h => ?_⟩
  obtain ⟨resp,hp,-⟩ := h.refused 1 rfl rfl 0 (by decide)
  cases hp

end runs
end Manvi.Mcp
