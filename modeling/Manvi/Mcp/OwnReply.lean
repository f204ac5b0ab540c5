import Manvi.Mcp.Client

/-! Every call gets its own reply: what the table, the reader's hands and the channels hold in every
state. -/
namespace Manvi.Mcp
open Manvi.Encoding

/-- The request was not registered yet. -/
def Phase.early : Phase → Bool
  | .idle | .begun | .opened | .live | .numbered => true
  | _ => false

/-- The request was registered and has not returned. -/
def Phase.held : Phase → Bool
  | .registered | .waiting | .leaving _ => true
  | _ => false

/-- The reply with which a request returned. -/
def Phase.answer : Phase → Option Reply
  | .returned (.replied reply) => some reply
  | .leaving (.replied reply) => some reply
  | _ => none

/-- The requests that were taken out of the table to be sent something. -/
def Reader.hand : Reader → List ℕ
  | .delivering r _ => [r]
  | .failing left _ => left
  | _ => []

/-- The reply that is about to be sent to a request. -/
def Reader.bound : Reader → ℕ → Option Reply
  | .delivering r resp,r' => if r' = r then some (.server resp) else none
  | .failing left reason,r' => if r' ∈ left then some (.synthetic reason) else none
  | _,_ => none

/-- Nothing was sent to a request yet, and its channel is open. -/
def Quiet (c : Client) (r : ℕ) : Prop := c.chans r = ⟨none,false⟩ ∧ c.sends r = 0

/-- A reply is that of a line the server wrote with the id of a request. -/
def From (decodeFrame : Bytes → Decoded) (c : Client) (r : ℕ) (resp : Response) : Prop :=
  ∃ line ∈ c.heard, ∃ hasPayload, decodeFrame line = .frame resp "" hasPayload ∧
    numericID resp.id = some (c.requests r).id

/-- What holds of the table, the reader and the channels. -/
structure Sound (decodeFrame : Bytes → Decoded) (c : Client) : Prop where
  entry : ∀ id r, c.pending.get id = some r → (c.requests r).id = id ∧ Quiet c r ∧
    ((c.requests r).phase.held = true ∨ (c.requests r).phase.early = false ∧ c.reader = .finished)
  hand : ∀ r ∈ c.reader.hand, Quiet c r ∧ (c.requests r).phase.early = false ∧ ∀ id,
    c.pending.get id ≠ some r
  nodup : c.reader.hand.Nodup
  fresh : ∀ r, (c.requests r).phase.early = true → Quiet c r
  once : ∀ r, c.sends r ≤ 1
  bound : ∀ r resp, c.reader = .delivering r resp → From decodeFrame c r resp
  buffer : ∀ r resp, (c.chans r).buffer = some (.server resp) → From decodeFrame c r resp
  answer : ∀ r resp, (c.requests r).phase.answer = some (.server resp) → From decodeFrame c r resp

lemma early_of_held {p : Phase} (h : p.held = true) : p.early = false := by
  cases p <;> first | rfl | cases h

section moves
variable {q q' : Request} {closed done ready : Bool} {m : Move}

/-- What a request can do by itself: nothing to its stage, a step before it is registered, a step on
the way from its registration, or the return at the end of the stream. -/
lemma move_cases (h : q.move closed done ready m = some q') : q'.id = q.id ∧ q'.kind = q.kind ∧
    (q'.phase = q.phase ∨ q'.phase.answer = none ∧ ((q.phase.early = true ∧ q'.phase.held = false) ∨
      (q.phase.held = true ∧ q'.phase.held = true) ∨
      (q.phase = .waiting ∧ done = true ∧ q'.phase = .returned .serverExited))) := by
  cases m with
  | endCtx =>
    cases h
    exact ⟨rfl,rfl,.inl rfl⟩
  | checkClosed =>
    obtain ⟨hp,he⟩ := Option.ite_none_right_eq_some.mp h
    cases he
    refine ⟨rfl,rfl,.inr ?_⟩
    rw [hp]
    cases closed <;> exact ⟨rfl,.inl ⟨rfl,rfl⟩⟩
  | checkDone =>
    obtain ⟨hp,he⟩ := Option.ite_none_right_eq_some.mp h
    cases he
    refine ⟨rfl,rfl,.inr ?_⟩
    rw [hp]
    cases done <;> exact ⟨rfl,.inl ⟨rfl,rfl⟩⟩
  | encodeFails =>
    obtain ⟨hp,he⟩ := Option.ite_none_right_eq_some.mp h
    cases he
    refine ⟨rfl,rfl,.inr ?_⟩
    rw [hp]
    exact ⟨rfl,.inl ⟨rfl,rfl⟩⟩
  | write w =>
    obtain ⟨hp,he⟩ := Option.ite_none_right_eq_some.mp h
    cases he
    refine ⟨rfl,rfl,.inr ?_⟩
    rw [hp]
    cases w <;> exact ⟨rfl,.inr (.inl ⟨rfl,rfl⟩)⟩
  | seeDone =>
    obtain ⟨hp,he⟩ := Option.ite_none_right_eq_some.mp h
    cases he
    exact ⟨rfl,rfl,.inr ⟨rfl,.inr (.inr ⟨hp.1,hp.2.1,rfl⟩)⟩⟩
  | seeCtx =>
    obtain ⟨hp,he⟩ := Option.ite_none_right_eq_some.mp h
    cases he
    refine ⟨rfl,rfl,.inr ?_⟩
    rw [hp.1]
    exact ⟨rfl,.inr (.inl ⟨rfl,rfl⟩)⟩
  | abort =>
    obtain ⟨hp,he⟩ := Option.ite_none_right_eq_some.mp h
    cases he
    refine ⟨rfl,rfl,.inr ?_⟩
    rw [hp.1]
    exact ⟨rfl,.inr (.inl ⟨rfl,rfl⟩)⟩

end moves

namespace Sound
variable {decodeFrame : Bytes → Decoded} {c : Client} {r : ℕ}

lemma start : Sound decodeFrame Client.start where
  entry := fun _ _ h => by cases h
  hand := fun _ h => by cases h
  nodup := List.nodup_nil
  fresh := fun _ _ => ⟨rfl,rfl⟩
  once := fun _ => Nat.zero_le _
  bound := fun _ _ h => by cases h
  buffer := fun _ _ h => by cases h
  answer := fun _ _ h => by cases h

/-- What is in the table was registered. -/
lemma late (h : Sound decodeFrame c) {id : Int64} (hget : c.pending.get id = some r) :
    (c.requests r).phase.early = false := by
  obtain ⟨_,_,hheld | hover⟩ := h.entry id r hget
  · exact early_of_held hheld
  · exact hover.1

lemma values (h : Sound decodeFrame c) (hr : r ∈ c.pending.values) :
    Quiet c r ∧ (c.requests r).phase.early = false := by
  obtain ⟨id,hget⟩ := Table.exists_get_of_mem_values hr
  exact ⟨(h.entry id r hget).2.1,h.late hget⟩

/-- A line that is only heard changes nothing else. -/
lemma hear (h : Sound decodeFrame c) (line : Bytes) :
    Sound decodeFrame { c with heard := c.heard ++ [line] } where
  entry := h.entry
  hand := h.hand
  nodup := h.nodup
  fresh := h.fresh
  once := h.once
  bound := by
    intro r resp hr
    obtain ⟨l,hl,hfrom⟩ := h.bound r resp hr
    exact ⟨l,List.mem_append_left _ hl,hfrom⟩
  buffer := by
    intro r resp hr
    obtain ⟨l,hl,hfrom⟩ := h.buffer r resp hr
    exact ⟨l,List.mem_append_left _ hl,hfrom⟩
  answer := by
    intro r resp hr
    obtain ⟨l,hl,hfrom⟩ := h.answer r resp hr
    exact ⟨l,List.mem_append_left _ hl,hfrom⟩

/-- All waiting requests are taken out of the table at once. -/
lemma failAllPending (h : Sound decodeFrame c) (reason : Reason) :
    Sound decodeFrame (c.failAllPending reason) where
  entry := fun _ _ hget => by cases hget
  hand := by
    intro r hr
    exact ⟨(h.values hr).1,(h.values hr).2,fun _ hget => by cases hget⟩
  nodup := by
    refine Table.nodup_values (fun k k' v hk hk' => ?_)
    rw [← (h.entry k v hk).1,(h.entry k' v hk').1]
  fresh := h.fresh
  once := h.once
  bound := fun _ _ hr => by cases hr
  buffer := h.buffer
  answer := h.answer

/-- A reply is taken to the request that waits for its id. -/
lemma deliverTo (h : Sound decodeFrame c) {id : Int64} {resp : Response}
    (hreading : c.reader = .reading)
    (hfrom : ∃ line ∈ c.heard, ∃ hasPayload, decodeFrame line = .frame resp "" hasPayload ∧
      numericID resp.id = some id) :
    Sound decodeFrame (c.deliverTo id resp) := by
  unfold Client.deliverTo
  cases hget : c.pending.get id with
  | none => exact h
  | some r =>
    have hr := h.entry id r hget
    exact {
      entry := by
        intro id' r' hget'
        rw [Table.get_erase] at hget'
        split_ifs at hget'
        obtain ⟨hid,hquiet,hheld | hover⟩ := h.entry id' r' hget'
        · exact ⟨hid,hquiet,.inl hheld⟩
        · rw [hreading] at hover
          cases hover.2
      hand := by
        intro r' hr'
        obtain rfl := List.mem_singleton.mp hr'
        refine ⟨hr.2.1,h.late hget,fun id' hget' => ?_⟩
        rw [Table.get_erase] at hget'
        split_ifs at hget' with hne
        exact hne ((h.entry id' _ hget').1.symm.trans hr.1)
      nodup := List.nodup_singleton r
      fresh := h.fresh
      once := h.once
      bound := by
        intro r' resp' he
        cases he
        obtain ⟨line,hline,hp,hdec,hid⟩ := hfrom
        exact ⟨line,hline,hp,hdec,by rw [hid,hr.1]⟩
      buffer := h.buffer
      answer := h.answer }

/-- Only what the server wrote as a reply is routed to a request. -/
lemma route_reply {line : Bytes} {id : Int64} {resp : Response}
    (h : route decodeFrame line = .reply id resp) :
    ∃ hasPayload, decodeFrame line = .frame resp "" hasPayload ∧ numericID resp.id = some id := by
  unfold route at h
  cases hd : decodeFrame line with
  | unreadable =>
    rw [hd] at h
    cases h
  | invalid =>
    rw [hd] at h
    dsimp only at h
    split_ifs at h
  | frame resp' method hasPayload =>
    rw [hd] at h
    dsimp only at h
    split_ifs at h with hmethod hpayload
    rw [not_not] at hmethod
    cases hn : numericID resp'.id with
    | none =>
      rw [hn] at h
      dsimp only at h
      split at h <;> cases h
    | some id' =>
      rw [hn] at h
      cases h
      exact ⟨hasPayload,by rw [hmethod],hn⟩

lemma read (h : Sound decodeFrame c) (hreading : c.reader = .reading) (item : Item) :
    Sound decodeFrame (c.read decodeFrame item) := by
  cases item with
  | tooLarge opening =>
    unfold Client.read
    dsimp only
    split_ifs
    · exact h.failAllPending _
    · exact h
  | line bytes =>
    unfold Client.read
    dsimp only
    split_ifs
    · exact h
    · unfold Client.dispatch
      cases hroute : route decodeFrame bytes with
      | ignored => exact h.hear bytes
      | serverFrame method => exact h.hear bytes
      | failAll reason => exact (h.hear bytes).failAllPending reason
      | reply id resp =>
        obtain ⟨hp,hdec,hid⟩ := route_reply hroute
        exact (h.hear bytes).deliverTo hreading ⟨bytes,by simp,hp,hdec,hid⟩

/-- The channel of a request in the reader's hands takes a reply. -/
lemma sendTo_eq (h : Sound decodeFrame c) (hr : r ∈ c.reader.hand) (reply : Reply) (rd : Reader) :
    c.sendTo r reply rd = some { c with
      chans := Function.update c.chans r ⟨some reply,false⟩
      reader := rd
      sends := Function.update c.sends r 1 } := by
  obtain ⟨hchan,hsends⟩ := (h.hand r hr).1
  rw [Client.sendTo,hchan,hsends]
  rfl

lemma sendTo (h : Sound decodeFrame c) (hr : r ∈ c.reader.hand) {reply : Reply} {rd : Reader}
    {c' : Client}
    (hfrom : ∀ resp, reply = .server resp → From decodeFrame c r resp)
    (hhand : rd.hand = c.reader.hand.erase r)
    (hrd : ∀ r resp, rd ≠ .delivering r resp) (hstep : c.sendTo r reply rd = some c') :
    Sound decodeFrame c' := by
  rw [h.sendTo_eq hr] at hstep
  cases hstep
  obtain ⟨hquiet,hlate,hnot⟩ := h.hand r hr
  have hother : ∀ r', r' ≠ r → Quiet c r' → Quiet { c with
      chans := Function.update c.chans r ⟨some reply,false⟩
      reader := rd
      sends := Function.update c.sends r 1 } r' := by
    intro r' hne hq
    refine ⟨?_,?_⟩
    · exact (Function.update_of_ne hne _ _).trans hq.1
    · exact (Function.update_of_ne hne _ _).trans hq.2
  exact {
    entry := by
      intro id r' hget
      have hne : r' ≠ r := by
        rintro rfl
        exact hnot id hget
      obtain ⟨hid,hq,hheld | hover⟩ := h.entry id r' hget
      · exact ⟨hid,hother r' hne hq,.inl hheld⟩
      · rw [hover.2] at hr
        cases hr
    hand := by
      intro r' hr'
      change r' ∈ rd.hand at hr'
      rw [hhand] at hr'
      have hne : r' ≠ r := by
        rintro rfl
        exact h.nodup.not_mem_erase hr'
      obtain ⟨hq,hl,hn⟩ := h.hand r' (List.mem_of_mem_erase hr')
      exact ⟨hother r' hne hq,hl,hn⟩
    nodup := by
      change rd.hand.Nodup
      rw [hhand]
      exact h.nodup.erase r
    fresh := by
      intro r' he
      have hne : r' ≠ r := by
        rintro rfl
        rw [hlate] at he
        cases he
      exact hother r' hne (h.fresh r' he)
    once := by
      intro r'
      by_cases hne : r' = r
      · change Function.update c.sends r 1 r' ≤ 1
        rw [hne,Function.update_self]
      · change Function.update c.sends r 1 r' ≤ 1
        rw [Function.update_of_ne hne]
        exact h.once r'
    bound := fun r' resp he => absurd he (hrd r' resp)
    buffer := by
      intro r' resp hb
      change (Function.update c.chans r ⟨some reply,false⟩ r').buffer = some (.server resp) at hb
      by_cases hne : r' = r
      · rw [hne,Function.update_self] at hb
        rw [hne]
        exact hfrom resp (Option.some.inj hb)
      · rw [Function.update_of_ne hne] at hb
        exact h.buffer r' resp hb
    answer := h.answer }

/-- The reader goes on with empty hands. -/
lemma setReader (h : Sound decodeFrame c) {rd : Reader} (hold : c.reader ≠ .finished)
    (hhand : rd.hand = [])
    (hrd : ∀ r resp, rd ≠ .delivering r resp) : Sound decodeFrame { c with reader := rd } where
  entry := by
    intro id r hget
    obtain ⟨hid,hq,hheld | hover⟩ := h.entry id r hget
    · exact ⟨hid,hq,.inl hheld⟩
    · exact absurd hover.2 hold
  hand := by
    intro r hr
    change r ∈ rd.hand at hr
    rw [hhand] at hr
    cases hr
  nodup := by
    change rd.hand.Nodup
    rw [hhand]
    exact List.nodup_nil
  fresh := h.fresh
  once := h.once
  bound := fun r resp he => absurd he (hrd r resp)
  buffer := h.buffer
  answer := h.answer

/-- At the end of the stream the channels of waiting requests are closed. -/
lemma flush (h : Sound decodeFrame c) : Sound decodeFrame c.flush where
  entry := fun _ _ hget => by cases hget
  hand := fun _ hr => by cases hr
  nodup := List.nodup_nil
  fresh := by
    intro r he
    refine ⟨?_,(h.fresh r he).2⟩
    change (if r ∈ c.pending.values then _ else c.chans r) = _
    rw [if_neg]
    · exact (h.fresh r he).1
    · intro hr
      change (c.requests r).phase.early = true at he
      rw [(h.values hr).2] at he
      cases he
  once := h.once
  bound := fun _ _ he => by cases he
  buffer := by
    intro r resp hb
    refine h.buffer r resp ?_
    change (if r ∈ c.pending.values then { c.chans r with closed := true }
      else c.chans r).buffer = _ at hb
    split_ifs at hb <;> exact hb
  answer := h.answer

/-- The counter and whether the client is closed concern no request. -/
lemma aside (h : Sound decodeFrame c) (n : Int64) (b : Bool) :
    Sound decodeFrame { c with reqCounter := n, closed := b } :=
  ⟨h.entry,h.hand,h.nodup,h.fresh,h.once,h.bound,h.buffer,h.answer⟩

lemma from_setRequest {q : Request} {r' : ℕ} {resp : Response}
    (hid : q.id = (c.requests r).id ∨ r' ≠ r)
    (h : From decodeFrame c r' resp) : From decodeFrame (c.setRequest r q) r' resp := by
  obtain ⟨line,hl,hp,hdec,hn⟩ := h
  refine ⟨line,hl,hp,hdec,?_⟩
  rw [hn]
  by_cases hr : r' = r
  · rw [hr,Client.setRequest_self,hid.resolve_right (fun hne => hne hr)]
  · rw [Client.setRequest_of_ne c q hr]

/-- A request goes on. It keeps its id once it has one. -/
lemma setRequest (h : Sound decodeFrame c) {q : Request}
    (hid : q.id = (c.requests r).id ∨ (c.requests r).phase.early = true)
    (hearly : q.phase.early = true → (c.requests r).phase.early = true)
    (hheld : (c.requests r).phase.held = true → q.phase.held = true ∨ q.phase.early = false ∧
      c.reader = .finished)
    (hanswer : q.phase.answer = none ∨ q.phase = (c.requests r).phase) :
    Sound decodeFrame (c.setRequest r q) := by
  have hold : ∀ r', r' ≠ r → (c.setRequest r q).requests r' = c.requests r' :=
    fun r' hne => c.setRequest_of_ne q hne
  have hnew : (c.setRequest r q).requests r = q := c.setRequest_self r q
  have hkeep : ∀ r', (c.requests r').phase.early = false → q.id = (c.requests r).id ∨ r' ≠ r := by
    intro r' hlate
    refine hid.imp_right (fun he hr => ?_)
    rw [hr,he] at hlate
    cases hlate
  exact {
    entry := by
      intro id r' hget
      obtain ⟨hid',hq,hcase⟩ := h.entry id r' hget
      by_cases hr : r' = r
      · subst hr
        have hlate := h.late hget
        rw [hnew]
        refine ⟨((hkeep r' hlate).resolve_right (fun hne => hne rfl)).trans hid',hq,?_⟩
        obtain hh | hover := hcase
        · exact hheld hh
        · refine .inr ⟨?_,hover.2⟩
          rw [← Bool.not_eq_true]
          intro he
          rw [hearly he] at hlate
          cases hlate
      · rw [hold r' hr]
        exact ⟨hid',hq,hcase⟩
    hand := by
      intro r' hr'
      obtain ⟨hq,hlate,hnot⟩ := h.hand r' hr'
      refine ⟨hq,?_,hnot⟩
      by_cases hr : r' = r
      · subst hr
        rw [hnew,← Bool.not_eq_true]
        intro he
        rw [hearly he] at hlate
        cases hlate
      · rw [hold r' hr]
        exact hlate
    nodup := h.nodup
    fresh := by
      intro r' he
      by_cases hr : r' = r
      · subst hr
        rw [hnew] at he
        exact h.fresh r' (hearly he)
      · rw [hold r' hr] at he
        exact h.fresh r' he
    once := h.once
    bound := by
      intro r' resp he
      change c.reader = .delivering r' resp at he
      have hr' : r' ∈ c.reader.hand := by
        rw [he]
        exact List.mem_singleton_self r'
      exact from_setRequest (hkeep r' (h.hand r' hr').2.1) (h.bound r' resp he)
    buffer := by
      intro r' resp hb
      refine from_setRequest (hkeep r' ?_) (h.buffer r' resp hb)
      rw [← Bool.not_eq_true]
      intro he
      change (c.chans r').buffer = _ at hb
      rw [(h.fresh r' he).1] at hb
      cases hb
    answer := by
      intro r' resp ha
      have hlate : ∀ p : Phase, p.answer = some (.server resp) → p.early = false := by
        intro p hp
        cases p <;> first | rfl | cases hp
      by_cases hr : r' = r
      · subst hr
        rw [hnew] at ha
        obtain hnone | hsame := hanswer
        · rw [hnone] at ha
          cases ha
        · rw [hsame] at ha
          exact from_setRequest (hkeep r' (hlate _ ha)) (h.answer r' resp ha)
      · rw [hold r' hr] at ha
        exact from_setRequest (.inr hr) (h.answer r' resp ha) }

/-- A request is registered under its number. -/
lemma register (h : Sound decodeFrame c) (hp : (c.requests r).phase = .numbered) :
    Sound decodeFrame ({ c with pending := c.pending.set (c.requests r).id r }.setRequest r
      { c.requests r with phase := .registered }) := by
  have hearly : (c.requests r).phase.early = true := by
    rw [hp]
    rfl
  have hne : ∀ r', (c.requests r').phase.early = false → r' ≠ r := by
    rintro r' hl rfl
    rw [hearly] at hl
    cases hl
  have hset := h.setRequest (r := r) (q := { c.requests r with phase := .registered }) (.inl rfl)
    (fun he => by cases he)
    (fun _ => .inl rfl) (.inl rfl)
  exact {
    entry := by
      intro id r' hget
      change (c.pending.set (c.requests r).id r).get id = some r' at hget
      rw [Table.get_set] at hget
      split_ifs at hget with heq
      · cases hget
        rw [Client.setRequest_self]
        exact ⟨heq.symm,h.fresh r hearly,.inl rfl⟩
      · exact hset.entry id r' hget
    hand := by
      intro r' hr'
      obtain ⟨hq,hl,hnot⟩ := hset.hand r' hr'
      refine ⟨hq,hl,fun id hget => ?_⟩
      change (c.pending.set (c.requests r).id r).get id = some r' at hget
      rw [Table.get_set] at hget
      split_ifs at hget
      · cases hget
        exact hne r (h.hand r hr').2.1 rfl
      · exact hnot id hget
    nodup := h.nodup
    fresh := hset.fresh
    once := h.once
    bound := hset.bound
    buffer := hset.buffer
    answer := hset.answer }

/-- A request takes what arrived on its channel. -/
lemma receive (h : Sound decodeFrame c) (hp : (c.requests r).phase = .waiting) {o : Outcome}
    {chan : Chan}
    (hrecv : (c.chans r).receive = some (o,chan)) : Sound decodeFrame
      { c.setRequest r { c.requests r with phase := .returned o } with
        chans := Function.update c.chans r chan } := by
  have hloud : ¬ Quiet c r := by
    intro hq
    rw [hq.1] at hrecv
    cases hrecv
  have hlate : (c.requests r).phase.early = false := by
    rw [hp]
    rfl
  have hentry : ∀ id r', c.pending.get id = some r' → r' ≠ r := by
    rintro id r' hget rfl
    exact hloud (h.entry id r' hget).2.1
  have hquiet : ∀ r', r' ≠ r → Quiet c r' → Quiet
      { c.setRequest r { c.requests r with phase := .returned o } with
        chans := Function.update c.chans r chan } r' :=
    fun r' hne hq => ⟨(Function.update_of_ne hne _ _).trans hq.1,hq.2⟩
  have hbuffer : ∀ resp, chan.buffer = some (.server resp) → False := by
    intro resp hb
    unfold Chan.receive at hrecv
    cases hbuf : (c.chans r).buffer with
    | some reply =>
      rw [hbuf] at hrecv
      cases hrecv
      cases hb
    | none =>
      rw [hbuf] at hrecv
      obtain ⟨_,he⟩ := Option.ite_none_right_eq_some.mp hrecv
      cases he
      rw [hbuf] at hb
      cases hb
  exact {
    entry := by
      intro id r' hget
      have hne := hentry id r' hget
      obtain ⟨hid,hq,hcase⟩ := h.entry id r' hget
      rw [show Client.requests _ r' = c.requests r' from c.setRequest_of_ne _ hne]
      exact ⟨hid,hquiet r' hne hq,hcase⟩
    hand := by
      intro r' hr'
      obtain ⟨hq,hl,hnot⟩ := h.hand r' hr'
      have hne : r' ≠ r := by
        rintro rfl
        exact hloud hq
      rw [show Client.requests _ r' = c.requests r' from c.setRequest_of_ne _ hne]
      exact ⟨hquiet r' hne hq,hl,hnot⟩
    nodup := h.nodup
    fresh := by
      intro r' he
      have hne : r' ≠ r := by
        rintro rfl
        rw [show Client.requests _ r' = { c.requests r' with
          phase := .returned o } from c.setRequest_self r' _] at he
        cases he
      rw [show Client.requests _ r' = c.requests r' from c.setRequest_of_ne _ hne] at he
      exact hquiet r' hne (h.fresh r' he)
    once := h.once
    bound := fun r' resp he => from_setRequest (q := { c.requests r with phase := .returned o })
      (.inl rfl) (h.bound r' resp he)
    buffer := by
      intro r' resp hb
      change (Function.update c.chans r chan r').buffer = some (.server resp) at hb
      by_cases hr : r' = r
      · rw [hr,Function.update_self] at hb
        exact (hbuffer resp hb).elim
      · rw [Function.update_of_ne hr] at hb
        exact from_setRequest (q := { c.requests r with phase := .returned o }) (.inl rfl)
          (h.buffer r' resp hb)
    answer := by
      intro r' resp ha
      refine from_setRequest (q := { c.requests r with phase := .returned o }) (.inl rfl) ?_
      by_cases hr : r' = r
      · subst hr
        rw [show Client.requests _ r' = { c.requests r' with
          phase := .returned o } from c.setRequest_self r' _] at ha
        refine h.buffer r' resp ?_
        unfold Chan.receive at hrecv
        cases hbuf : (c.chans r').buffer with
        | some reply =>
          rw [hbuf] at hrecv
          cases hrecv
          exact ha
        | none =>
          rw [hbuf] at hrecv
          obtain ⟨_,he⟩ := Option.ite_none_right_eq_some.mp hrecv
          cases he
          cases ha
      · rw [show Client.requests _ r' = c.requests r' from c.setRequest_of_ne _ hr] at ha
        exact h.answer r' resp ha }

/-- A request that leaves is forgotten. -/
lemma forget (h : Sound decodeFrame c) {o : Outcome} (hp : (c.requests r).phase = .leaving o) :
    Sound decodeFrame ({ c with pending := c.pending.erase (c.requests r).id }.setRequest r
      { c.requests r with phase := .returned o }) := by
  have herase : ∀ id r', (c.pending.erase (c.requests r).id).get id = some r' →
    c.pending.get id = some r' ∧ r' ≠ r := by
    intro id r' hget
    rw [Table.get_erase] at hget
    split_ifs at hget with hne
    refine ⟨hget,?_⟩
    rintro rfl
    exact hne (h.entry id r' hget).1.symm
  have hold : ∀ r', r' ≠ r →
    Client.requests ({ c with pending := c.pending.erase (c.requests r).id }.setRequest r
      { c.requests r with phase := .returned o }) r' = c.requests r' :=
      fun r' hne => Client.setRequest_of_ne _ _ hne
  exact {
    entry := by
      intro id r' hget
      obtain ⟨hget,hne⟩ := herase id r' hget
      rw [hold r' hne]
      exact h.entry id r' hget
    hand := by
      intro r' hr'
      obtain ⟨hq,hl,hnot⟩ := h.hand r' hr'
      refine ⟨hq,?_,fun id hget => hnot id (herase id r' hget).1⟩
      by_cases hr : r' = r
      · rw [hr,Client.setRequest_self]
        rfl
      · rw [hold r' hr]
        exact hl
    nodup := h.nodup
    fresh := by
      intro r' he
      by_cases hr : r' = r
      · rw [hr,Client.setRequest_self] at he
        cases he
      · rw [hold r' hr] at he
        exact h.fresh r' he
    once := h.once
    bound := fun r' resp he => from_setRequest (q := { c.requests r with phase := .returned o })
      (.inl rfl) (h.bound r' resp he)
    buffer := fun r' resp hb => from_setRequest (q := { c.requests r with phase := .returned o })
      (.inl rfl) (h.buffer r' resp hb)
    answer := by
      intro r' resp ha
      refine from_setRequest (q := { c.requests r with phase := .returned o }) (.inl rfl) ?_
      by_cases hr : r' = r
      · rw [hr,Client.setRequest_self] at ha
        refine h.answer r' resp ?_
        rw [hr,hp]
        cases o <;> exact ha
      · rw [hold r' hr] at ha
        exact h.answer r' resp ha }

lemma move (h : Sound decodeFrame c) {m : Move} {q : Request} {ready b : Bool}
    (hmove : (c.requests r).move c.closed (c.reader = .finished) ready m = some q) :
    Sound decodeFrame { c.setRequest r q with closed := b } := by
  obtain ⟨hid,_,hcase⟩ := move_cases hmove
  refine (h.setRequest (.inl hid) ?_ ?_ ?_).aside c.reqCounter b
  · intro he
    obtain hsame | ⟨_,⟨hearly,_⟩ | ⟨_,hheld⟩ | ⟨_,_,hret⟩⟩ := hcase
    · rw [← hsame]
      exact he
    · exact hearly
    · rw [early_of_held hheld] at he
      cases he
    · rw [hret] at he
      cases he
  · intro hh
    obtain hsame | ⟨_,⟨hearly,_⟩ | ⟨_,hheld⟩ | ⟨_,hdone,hret⟩⟩ := hcase
    · rw [hsame]
      exact .inl hh
    · rw [early_of_held hh] at hearly
      cases hearly
    · exact .inl hheld
    · rw [hret]
      exact .inr ⟨rfl,of_decide_eq_true hdone⟩
  · exact hcase.symm.imp_left And.left

lemma step {c' : Client} {a : Action} (h : Sound decodeFrame c)
    (hstep : c.step decodeFrame a = some c') : Sound decodeFrame c' := by
  unfold Client.step at hstep
  cases a with
  | read item =>
    obtain ⟨hreading,he⟩ := Option.ite_none_right_eq_some.mp hstep
    cases he
    exact h.read hreading item
  | deliver =>
    dsimp only at hstep
    split at hstep
    · rename_i r resp hrd
      refine h.sendTo (by rw [hrd]; exact List.mem_singleton_self r) ?_
        (by rw [hrd]; simp [Reader.hand]) (by simp) hstep
      intro resp' he
      cases he
      exact h.bound r resp hrd
    · cases hstep
  | fail r =>
    dsimp only at hstep
    split at hstep
    · rename_i left reason hrd
      obtain ⟨hr,hstep⟩ := Option.ite_none_right_eq_some.mp hstep
      exact h.sendTo (by rw [hrd]; exact hr) (fun resp he => by cases he) (by rw [hrd]; rfl)
        (by simp) hstep
    · cases hstep
  | resume =>
    dsimp only at hstep
    split at hstep
    · rename_i hrd
      cases hstep
      exact h.setReader (by rw [hrd]; simp) rfl (by simp)
    · cases hstep
  | eof =>
    obtain ⟨hrd,he⟩ := Option.ite_none_right_eq_some.mp hstep
    cases he
    exact h.setReader (by rw [hrd]; simp) rfl (by simp)
  | flush =>
    obtain ⟨_,he⟩ := Option.ite_none_right_eq_some.mp hstep
    cases he
    exact h.flush
  | finish =>
    obtain ⟨hrd,he⟩ := Option.ite_none_right_eq_some.mp hstep
    cases he
    exact h.setReader (by rw [hrd]; simp) rfl (by simp)
  | close =>
    cases hstep
    exact h.aside c.reqCounter true
  | begin r kind =>
    obtain ⟨hp,he⟩ := Option.ite_none_right_eq_some.mp hstep
    cases he
    exact h.setRequest (.inl rfl) (fun _ => by rw [hp]; rfl) (fun hh => by rw [hp] at hh; cases hh)
      (.inl rfl)
  | move r m =>
    obtain ⟨q,hmove,he⟩ := Option.map_eq_some_iff.mp hstep
    cases he
    exact h.move hmove
  | number r =>
    obtain ⟨hp,he⟩ := Option.ite_none_right_eq_some.mp hstep
    cases he
    exact (h.aside (c.reqCounter+1) c.closed).setRequest (.inr (by rw [hp]; rfl))
      (fun _ => by rw [hp]; rfl)
      (fun hh => by rw [hp] at hh; cases hh) (.inl rfl)
  | register r =>
    obtain ⟨hp,he⟩ := Option.ite_none_right_eq_some.mp hstep
    cases he
    exact h.register hp
  | receive r =>
    obtain ⟨hp,he⟩ := Option.ite_none_right_eq_some.mp hstep
    obtain ⟨⟨o,chan⟩,hrecv,he⟩ := Option.map_eq_some_iff.mp he
    cases he
    exact h.receive hp hrecv
  | forget r =>
    dsimp only at hstep
    split at hstep
    · cases hstep
      exact h.forget ‹_›
    · cases hstep

end Sound

lemma run_sound {decodeFrame : Bytes → Decoded} {actions : List Action} {c c' : Client}
    (h : Sound decodeFrame c)
    (hrun : c.run decodeFrame actions = some c') : Sound decodeFrame c' := by
  induction actions generalizing c with
  | nil =>
    cases hrun
    exact h
  | cons a as ih =>
    obtain ⟨c1,hstep,hrest⟩ := Option.bind_eq_some_iff.mp hrun
    exact ih (h.step hstep) hrest

/-- A step of a call that has a reply on the way is prompt: it chooses while neither its context nor
the stream has ended, its write succeeds, and no reply is routed to a call whose write has
failed. -/
def Prompt (decodeFrame : Bytes → Decoded) (c : Client) : Action → Prop
  | .receive r => c.routed r ≠ none → (c.requests r).ctxEnded = false ∧ c.reader ≠ .finished
  | .move r .seeDone => c.routed r ≠ none → (c.requests r).ctxEnded = false ∧ c.reader ≠ .finished
  | .move r .seeCtx => c.routed r ≠ none → (c.requests r).ctxEnded = false ∧ c.reader ≠ .finished
  | .move r (.write w) => c.routed r ≠ none → w = .ok
  | .read (.line line) => ∀ id resp r err, route decodeFrame line = .reply id resp →
    c.pending.get id = some r →
      (c.requests r).phase ≠ .leaving (.sendFailed err)
  | _ => True

/-- A reply was returned by its call, or is on the way to it. -/
def Answered (c : Client) (r : ℕ) (resp : Response) : Prop :=
  (c.requests r).phase = .returned (.replied (.server resp)) ∨
  (((c.requests r).phase = .registered ∨ (c.requests r).phase = .waiting) ∧
    (c.reader = .delivering r resp ∨ (c.chans r).buffer = some (.server resp)))

/-- Why a request may be leaving. -/
def Leaves (q : Request) (o : Outcome) : Prop :=
  (∃ err, o = .sendFailed err) ∨ (o = .ctxEnded ∧ q.ctxEnded = true) ∨ q.kind = .handshake

section answered
variable {decodeFrame : Bytes → Decoded} {c c' : Client} {r : ℕ} {resp : Response} {a : Action}

lemma Answered.keep (h : Answered c r resp) (hreq : (c'.requests r).phase = (c.requests r).phase)
    (hbuf : (c'.chans r).buffer = (c.chans r).buffer)
    (hrd : c.reader = .delivering r resp → c'.reader = .delivering r resp) :
    Answered c' r resp := by
  unfold Answered
  rw [hreq,hbuf]
  obtain hret | ⟨hphase,hway⟩ := h
  · exact .inl hret
  · exact .inr ⟨hphase,hway.imp_left hrd⟩

/-- A request that left early or is leaving has no reply on the way. -/
lemma Answered.phase (h : Answered c r resp) :
    (c.requests r).phase = .returned (.replied (.server resp)) ∨
    (c.requests r).phase = .registered ∨ (c.requests r).phase = .waiting := h.imp_right And.left

lemma leaves_move {q q' : Request} {closed done ready : Bool} {m : Move}
    (h : q.move closed done ready m = some q')
    (hq : ∀ o, q.phase = .leaving o → Leaves q o) (o : Outcome) (ho : q'.phase = .leaving o) :
    Leaves q' o := by
  cases m with
  | endCtx =>
    cases h
    obtain herr | ⟨hctx,_⟩ | hkind := hq o ho
    · exact .inl herr
    · exact .inr (.inl ⟨hctx,rfl⟩)
    · exact .inr (.inr hkind)
  | checkClosed =>
    obtain ⟨_,he⟩ := Option.ite_none_right_eq_some.mp h
    cases he
    cases closed <;> cases ho
  | checkDone =>
    obtain ⟨_,he⟩ := Option.ite_none_right_eq_some.mp h
    cases he
    cases done <;> cases ho
  | encodeFails =>
    obtain ⟨_,he⟩ := Option.ite_none_right_eq_some.mp h
    cases he
    cases ho
  | write w =>
    obtain ⟨_,he⟩ := Option.ite_none_right_eq_some.mp h
    cases he
    cases w with
    | ok => cases ho
    | failed =>
      cases ho
      exact .inl ⟨_,rfl⟩
    | uncertain =>
      cases ho
      exact .inl ⟨_,rfl⟩
  | seeDone =>
    obtain ⟨_,he⟩ := Option.ite_none_right_eq_some.mp h
    cases he
    cases ho
  | seeCtx =>
    obtain ⟨hp,he⟩ := Option.ite_none_right_eq_some.mp h
    cases he
    cases ho
    exact .inr (.inl ⟨rfl,hp.2.2⟩)
  | abort =>
    obtain ⟨hp,he⟩ := Option.ite_none_right_eq_some.mp h
    cases he
    exact .inr (.inr hp.2.1)

/-- A read leaves the requests alone and hears at most one line. -/
lemma read_frame (c : Client) (item : Item) : (c.read decodeFrame item).requests = c.requests ∧
    (c.read decodeFrame item).closed = c.closed ∧ ((c.read decodeFrame item).heard = c.heard ∨
      ∃ bytes, item = .line bytes ∧ (c.read decodeFrame item).heard = c.heard ++ [bytes]) := by
  cases item with
  | tooLarge opening =>
    unfold Client.read
    dsimp only
    split_ifs
    · exact ⟨rfl,rfl,.inl rfl⟩
    · exact ⟨rfl,rfl,.inl rfl⟩
  | line bytes =>
    unfold Client.read
    dsimp only
    split_ifs
    · exact ⟨rfl,rfl,.inl rfl⟩
    · unfold Client.dispatch
      cases route decodeFrame bytes with
      | ignored => exact ⟨rfl,rfl,.inr ⟨bytes,rfl,rfl⟩⟩
      | serverFrame method => exact ⟨rfl,rfl,.inr ⟨bytes,rfl,rfl⟩⟩
      | failAll reason => exact ⟨rfl,rfl,.inr ⟨bytes,rfl,rfl⟩⟩
      | reply id resp =>
        dsimp only
        unfold Client.deliverTo
        split
        · exact ⟨rfl,rfl,.inr ⟨bytes,rfl,rfl⟩⟩
        · exact ⟨rfl,rfl,.inr ⟨bytes,rfl,rfl⟩⟩

/-- What a step does to one request: nothing, what the request does by itself, or a step that
concerns the table, the counter or its channel too. -/
lemma step_request (h : c.step decodeFrame a = some c') (r : ℕ) : c'.requests r = c.requests r ∨
    (∃ m, a = .move r m ∧ (c.requests r).move c.closed (c.reader = .finished) (c.chans r).ready m =
      some (c'.requests r)) ∨
    (∃ kind, a = .begin r kind ∧ (c.requests r).phase = .idle ∧
      c'.requests r = { c.requests r with kind := kind, phase := .begun }) ∨
    (∃ id, (c.requests r).phase = .live ∧ c'.requests r = { c.requests r with
      id := id, phase := .numbered }) ∨
    ((c.requests r).phase = .numbered ∧ c'.requests r = { c.requests r with
      phase := .registered }) ∨
    (∃ o, c'.requests r = { c.requests r with phase := .returned o } ∧
      ((c.requests r).phase = .leaving o ∨
      (c.requests r).phase = .waiting ∧ ∃ chan, (c.chans r).receive = some (o,chan))) := by
  have hset : ∀ (d : Client) (r0 : ℕ) (q : Request), d.requests = c.requests → r ≠ r0 →
      (d.setRequest r0 q).requests r = c.requests r := by
    intro d r0 q hd hne
    rw [Client.setRequest_of_ne d q hne,hd]
  unfold Client.step at h
  cases a with
  | read item =>
    obtain ⟨_,he⟩ := Option.ite_none_right_eq_some.mp h
    cases he
    exact .inl (by rw [(read_frame c item).1])
  | deliver =>
    dsimp only at h
    split at h
    · obtain ⟨chan,_,rfl⟩ := Option.map_eq_some_iff.mp h
      exact .inl rfl
    · cases h
  | fail r0 =>
    dsimp only at h
    split at h
    · obtain ⟨_,h⟩ := Option.ite_none_right_eq_some.mp h
      obtain ⟨chan,_,rfl⟩ := Option.map_eq_some_iff.mp h
      exact .inl rfl
    · cases h
  | resume =>
    dsimp only at h
    split at h
    · cases h
      exact .inl rfl
    · cases h
  | eof =>
    obtain ⟨_,he⟩ := Option.ite_none_right_eq_some.mp h
    cases he
    exact .inl rfl
  | flush =>
    obtain ⟨_,he⟩ := Option.ite_none_right_eq_some.mp h
    cases he
    exact .inl rfl
  | finish =>
    obtain ⟨_,he⟩ := Option.ite_none_right_eq_some.mp h
    cases he
    exact .inl rfl
  | close =>
    cases h
    exact .inl rfl
  | begin r0 kind =>
    obtain ⟨hp,he⟩ := Option.ite_none_right_eq_some.mp h
    cases he
    by_cases hr : r = r0
    · subst hr
      exact .inr (.inr (.inl ⟨kind,rfl,hp,Client.setRequest_self _ _ _⟩))
    · exact .inl (hset _ _ _ rfl hr)
  | move r0 m =>
    obtain ⟨q,hmove,he⟩ := Option.map_eq_some_iff.mp h
    cases he
    by_cases hr : r = r0
    · subst hr
      rw [show Client.requests _ r = q from c.setRequest_self r q]
      exact .inr (.inl ⟨m,rfl,hmove⟩)
    · exact .inl (hset _ _ _ rfl hr)
  | number r0 =>
    obtain ⟨hp,he⟩ := Option.ite_none_right_eq_some.mp h
    cases he
    by_cases hr : r = r0
    · subst hr
      exact .inr (.inr (.inr (.inl ⟨_,hp,Client.setRequest_self _ _ _⟩)))
    · exact .inl (hset _ _ _ rfl hr)
  | register r0 =>
    obtain ⟨hp,he⟩ := Option.ite_none_right_eq_some.mp h
    cases he
    by_cases hr : r = r0
    · subst hr
      exact .inr (.inr (.inr (.inr (.inl ⟨hp,Client.setRequest_self _ _ _⟩))))
    · exact .inl (hset _ _ _ rfl hr)
  | receive r0 =>
    obtain ⟨hp,he⟩ := Option.ite_none_right_eq_some.mp h
    obtain ⟨⟨o,chan⟩,hrecv,he⟩ := Option.map_eq_some_iff.mp he
    cases he
    by_cases hr : r = r0
    · subst hr
      exact .inr (.inr (.inr (.inr (.inr ⟨o,c.setRequest_self r _,.inr ⟨hp,chan,hrecv⟩⟩))))
    · exact .inl (hset _ _ _ rfl hr)
  | forget r0 =>
    dsimp only at h
    split at h
    · rename_i o hp
      cases h
      by_cases hr : r = r0
      · subst hr
        exact .inr (.inr (.inr (.inr (.inr ⟨o,Client.setRequest_self _ _ _,.inl hp⟩))))
      · exact .inl (hset _ _ _ rfl hr)
    · cases h

/-- What a read does, as far as replies are concerned: it keeps the channels, and it routes at most
one reply. -/
lemma read_cases (c : Client) (item : Item) : (c.read decodeFrame item).chans = c.chans ∧
    ((c.read decodeFrame item).routed = c.routed ∧
      (∀ r resp, (c.read decodeFrame item).reader = .delivering r resp →
        c.reader = .delivering r resp ∨ (c.requests r).ctxEnded = true) ∨
      ∃ line id resp r, item = .line line ∧ route decodeFrame line = .reply id resp ∧
      c.pending.get id = some r ∧
        (c.requests r).ctxEnded = false ∧ (c.read decodeFrame item).reader = .delivering r resp ∧
        (c.read decodeFrame item).routed = Function.update c.routed r (some resp)) := by
  cases item with
  | tooLarge opening =>
    unfold Client.read
    dsimp only
    split_ifs
    · exact ⟨rfl,.inl ⟨rfl,fun r resp he => by cases he⟩⟩
    · exact ⟨rfl,.inl ⟨rfl,fun r resp he => .inl he⟩⟩
  | line bytes =>
    unfold Client.read
    dsimp only
    split_ifs
    · exact ⟨rfl,.inl ⟨rfl,fun r resp he => .inl he⟩⟩
    · unfold Client.dispatch
      cases hroute : route decodeFrame bytes with
      | ignored => exact ⟨rfl,.inl ⟨rfl,fun r resp he => .inl he⟩⟩
      | serverFrame method => exact ⟨rfl,.inl ⟨rfl,fun r resp he => .inl he⟩⟩
      | failAll reason => exact ⟨rfl,.inl ⟨rfl,fun r resp he => by cases he⟩⟩
      | reply id resp =>
        dsimp only
        unfold Client.deliverTo
        dsimp only
        cases hget : c.pending.get id with
        | none => exact ⟨rfl,.inl ⟨rfl,fun r resp he => .inl he⟩⟩
        | some r =>
          cases hctx : (c.requests r).ctxEnded with
          | true =>
            refine ⟨rfl,.inl ⟨by simp [hctx],fun r' resp' he => ?_⟩⟩
            cases he
            exact .inr hctx
          | false => exact ⟨rfl,.inr ⟨bytes,id,resp,r,rfl,hroute,hget,hctx,rfl,by simp [hctx]⟩⟩

/-- Only a read hears a line and routes a reply. -/
lemma step_routed (h : c.step decodeFrame a = some c') :
    (c'.routed = c.routed ∧ c'.heard = c.heard) ∨ ∃ item, a = .read item ∧
    c.reader = .reading ∧ c' = c.read decodeFrame item := by
  unfold Client.step at h
  cases a with
  | read item =>
    obtain ⟨hrd,he⟩ := Option.ite_none_right_eq_some.mp h
    cases he
    exact .inr ⟨item,rfl,hrd,rfl⟩
  | deliver =>
    dsimp only at h
    split at h
    · obtain ⟨chan,_,rfl⟩ := Option.map_eq_some_iff.mp h
      exact .inl ⟨rfl,rfl⟩
    · cases h
  | fail r0 =>
    dsimp only at h
    split at h
    · obtain ⟨_,h⟩ := Option.ite_none_right_eq_some.mp h
      obtain ⟨chan,_,rfl⟩ := Option.map_eq_some_iff.mp h
      exact .inl ⟨rfl,rfl⟩
    · cases h
  | resume =>
    dsimp only at h
    split at h
    · cases h
      exact .inl ⟨rfl,rfl⟩
    · cases h
  | eof => obtain ⟨_,he⟩ := Option.ite_none_right_eq_some.mp h; cases he; exact .inl ⟨rfl,rfl⟩
  | flush => obtain ⟨_,he⟩ := Option.ite_none_right_eq_some.mp h; cases he; exact .inl ⟨rfl,rfl⟩
  | finish => obtain ⟨_,he⟩ := Option.ite_none_right_eq_some.mp h; cases he; exact .inl ⟨rfl,rfl⟩
  | close => cases h; exact .inl ⟨rfl,rfl⟩
  | begin r0 kind =>
    obtain ⟨_,he⟩ := Option.ite_none_right_eq_some.mp h; cases he; exact .inl ⟨rfl,rfl⟩
  | move r0 m => obtain ⟨_,_,he⟩ := Option.map_eq_some_iff.mp h; cases he; exact .inl ⟨rfl,rfl⟩
  | number r0 => obtain ⟨_,he⟩ := Option.ite_none_right_eq_some.mp h; cases he; exact .inl ⟨rfl,rfl⟩
  | register r0 =>
    obtain ⟨_,he⟩ := Option.ite_none_right_eq_some.mp h; cases he; exact .inl ⟨rfl,rfl⟩
  | receive r0 =>
    obtain ⟨_,he⟩ := Option.ite_none_right_eq_some.mp h
    obtain ⟨_,_,he⟩ := Option.map_eq_some_iff.mp he
    cases he
    exact .inl ⟨rfl,rfl⟩
  | forget r0 =>
    dsimp only at h
    split at h
    · cases h
      exact .inl ⟨rfl,rfl⟩
    · cases h

/-- The reply on the way to a call stays there in a prompt step, until the call returns it. -/
lemma answered_step (hs : Sound decodeFrame c) (h : c.step decodeFrame a = some c')
    (hprompt : Prompt decodeFrame c a)
    (hkind : (c.requests r).kind = .call) (hrouted : c.routed r = some resp)
    (ha : Answered c r resp) : Answered c' r resp := by
  have hsome : c.routed r ≠ none := by
    rw [hrouted]
    simp
  have hloud : (c.requests r).phase = .registered ∨ (c.requests r).phase = .waiting →
      (c.chans r).buffer = some (.server resp) → r ∉ c.reader.hand := by
    intro _ hb hr
    rw [(hs.hand r hr).1.1] at hb
    cases hb
  unfold Client.step at h
  cases a with
  | read item =>
    obtain ⟨hrd,he⟩ := Option.ite_none_right_eq_some.mp h
    cases he
    refine ha.keep ?_ ?_ (fun hdel => by rw [hrd] at hdel; cases hdel)
    · rw [(read_frame c item).1]
    · rw [(read_cases c item).1]
  | deliver =>
    dsimp only at h
    split at h
    · rename_i r0 resp0 hrd
      rw [hs.sendTo_eq (by rw [hrd]; exact List.mem_singleton_self r0)] at h
      cases h
      by_cases hr : r = r0
      · subst hr
        obtain hret | ⟨hphase,hdel | hb⟩ := ha
        · exact .inl hret
        · rw [hrd] at hdel
          cases hdel
          exact .inr ⟨hphase,.inr (by rw [show Client.chans _ r =
            _ from Function.update_self _ _ _])⟩
        · exact absurd (by rw [hrd]; exact List.mem_singleton_self r) (hloud hphase hb)
      · refine ha.keep rfl ?_ ?_
        · rw [show Client.chans _ r = c.chans r from Function.update_of_ne hr _ _]
        · intro hdel
          rw [hrd] at hdel
          cases hdel
          exact absurd rfl hr
    · cases h
  | fail r0 =>
    dsimp only at h
    split at h
    · rename_i left reason hrd
      obtain ⟨hr0,h⟩ := Option.ite_none_right_eq_some.mp h
      have hmem : r0 ∈ c.reader.hand := by
        rw [hrd]
        exact hr0
      rw [hs.sendTo_eq hmem] at h
      cases h
      by_cases hr : r = r0
      · subst hr
        obtain hret | ⟨hphase,hdel | hb⟩ := ha
        · exact .inl hret
        · rw [hrd] at hdel
          cases hdel
        · exact absurd hmem (hloud hphase hb)
      · refine ha.keep rfl ?_ ?_
        · rw [show Client.chans _ r = c.chans r from Function.update_of_ne hr _ _]
        · intro hdel
          rw [hrd] at hdel
          cases hdel
    · cases h
  | resume =>
    dsimp only at h
    split at h
    · rename_i hrd
      cases h
      exact ha.keep rfl rfl (fun hdel => by rw [hrd] at hdel; cases hdel)
    · cases h
  | eof =>
    obtain ⟨hrd,he⟩ := Option.ite_none_right_eq_some.mp h
    cases he
    exact ha.keep rfl rfl (fun hdel => by rw [hrd] at hdel; cases hdel)
  | flush =>
    obtain ⟨hrd,he⟩ := Option.ite_none_right_eq_some.mp h
    cases he
    refine ha.keep rfl ?_ (fun hdel => by rw [hrd] at hdel; cases hdel)
    change (if r ∈ c.pending.values then { c.chans r with closed := true }
      else c.chans r).buffer = _
    split_ifs <;> rfl
  | finish =>
    obtain ⟨hrd,he⟩ := Option.ite_none_right_eq_some.mp h
    cases he
    exact ha.keep rfl rfl (fun hdel => by rw [hrd] at hdel; cases hdel)
  | close =>
    cases h
    exact ha.keep rfl rfl id
  | begin r0 kind =>
    obtain ⟨hp,he⟩ := Option.ite_none_right_eq_some.mp h
    cases he
    by_cases hr : r = r0
    · exact absurd ha.phase (by rw [hr,hp]; simp)
    · exact ha.keep (by rw [Client.setRequest_of_ne _ _ hr]) rfl id
  | move r0 m =>
    obtain ⟨q,hmove,he⟩ := Option.map_eq_some_iff.mp h
    cases he
    by_cases hr : r = r0
    · subst hr
      have hnew : Client.requests { c.setRequest r q with
        closed := c.closed || m = .write .uncertain } r = q :=
        c.setRequest_self r q
      cases m with
      | endCtx =>
        cases hmove
        exact ha.keep (by rw [hnew]) rfl id
      | checkClosed =>
        exact absurd ha.phase (by rw [(Option.ite_none_right_eq_some.mp hmove).1]; simp)
      | checkDone =>
        exact absurd ha.phase (by rw [(Option.ite_none_right_eq_some.mp hmove).1]; simp)
      | encodeFails =>
        exact absurd ha.phase (by rw [(Option.ite_none_right_eq_some.mp hmove).1]; simp)
      | write w =>
        obtain ⟨hp,he⟩ := Option.ite_none_right_eq_some.mp hmove
        obtain rfl : w = .ok := hprompt hsome
        cases he
        obtain hret | ⟨_,hway⟩ := ha
        · rw [hp] at hret
          cases hret
        · exact .inr ⟨.inr (by rw [hnew]),hway⟩
      | seeDone =>
        obtain ⟨hp,_⟩ := Option.ite_none_right_eq_some.mp hmove
        exact absurd (of_decide_eq_true hp.2.1) (hprompt hsome).2
      | seeCtx =>
        obtain ⟨hp,_⟩ := Option.ite_none_right_eq_some.mp hmove
        rw [(hprompt hsome).1] at hp
        cases hp.2.2
      | abort =>
        obtain ⟨hp,_⟩ := Option.ite_none_right_eq_some.mp hmove
        rw [hkind] at hp
        cases hp.2.1
    · exact ha.keep (by rw [show Client.requests _ r =
        c.requests r from c.setRequest_of_ne q hr]) rfl id
  | number r0 =>
    obtain ⟨hp,he⟩ := Option.ite_none_right_eq_some.mp h
    cases he
    by_cases hr : r = r0
    · exact absurd ha.phase (by rw [hr,hp]; simp)
    · exact ha.keep (by rw [Client.setRequest_of_ne _ _ hr]) rfl id
  | register r0 =>
    obtain ⟨hp,he⟩ := Option.ite_none_right_eq_some.mp h
    cases he
    by_cases hr : r = r0
    · exact absurd ha.phase (by rw [hr,hp]; simp)
    · exact ha.keep (by rw [Client.setRequest_of_ne _ _ hr]) rfl id
  | receive r0 =>
    obtain ⟨hp,he⟩ := Option.ite_none_right_eq_some.mp h
    obtain ⟨⟨o,chan⟩,hrecv,he⟩ := Option.map_eq_some_iff.mp he
    cases he
    by_cases hr : r = r0
    · subst hr
      obtain hret | ⟨_,hdel | hb⟩ := ha
      · rw [hp] at hret
        cases hret
      · have hmem : r ∈ c.reader.hand := by
          rw [hdel]
          exact List.mem_singleton_self r
        rw [(hs.hand r hmem).1.1] at hrecv
        cases hrecv
      · unfold Chan.receive at hrecv
        rw [hb] at hrecv
        cases hrecv
        exact .inl (by rw [show Client.requests _ r = _ from c.setRequest_self r _])
    · refine ha.keep ?_ ?_ id
      · rw [show Client.requests _ r = c.requests r from c.setRequest_of_ne _ hr]
      · rw [show Client.chans _ r = c.chans r from Function.update_of_ne hr _ _]
  | forget r0 =>
    dsimp only at h
    split at h
    · rename_i o hp
      cases h
      by_cases hr : r = r0
      · exact absurd ha.phase (by rw [hr,hp]; simp)
      · exact ha.keep (by rw [Client.setRequest_of_ne _ _ hr]) rfl id
    · cases h

/-- What holds in every state of a prompt run. -/
structure Kept (c : Client) : Prop where
  leaving : ∀ r o, (c.requests r).phase = .leaving o → Leaves (c.requests r) o
  late : ∀ r, c.routed r ≠ none → (c.requests r).phase.early = false
  answered : ∀ r resp, (c.requests r).kind = .call → c.routed r = some resp → Answered c r resp

lemma Kept.start : Kept Client.start where
  leaving := fun _ _ h => by cases h
  late := fun _ h => absurd rfl h
  answered := fun _ _ _ h => by cases h

/-- A request that was registered keeps its kind and its id. -/
lemma early_step (h : c.step decodeFrame a = some c') (hlate : (c.requests r).phase.early = false) :
    (c'.requests r).phase.early = false ∧ (c'.requests r).kind = (c.requests r).kind ∧
      (c'.requests r).id = (c.requests r).id := by
  obtain hsame | ⟨m,_,hmove⟩ | ⟨kind,_,hp,_⟩ | ⟨id,hp,_⟩ | ⟨hp,_⟩ | ⟨o,hret,_⟩ := step_request h r
  · rw [hsame]
    exact ⟨hlate,rfl,rfl⟩
  · obtain ⟨hid,hkind,hphase | ⟨_,⟨hearly,_⟩ | ⟨_,hheld⟩ | ⟨_,_,hret⟩⟩⟩ := move_cases hmove
    · rw [hphase]
      exact ⟨hlate,hkind,hid⟩
    · rw [hlate] at hearly
      cases hearly
    · exact ⟨early_of_held hheld,hkind,hid⟩
    · rw [hret]
      exact ⟨rfl,hkind,hid⟩
  · rw [hp] at hlate
    cases hlate
  · rw [hp] at hlate
    cases hlate
  · rw [hp] at hlate
    cases hlate
  · rw [hret]
    exact ⟨rfl,rfl,rfl⟩

lemma Kept.step (hs : Sound decodeFrame c) (hk : Kept c) (h : c.step decodeFrame a = some c')
    (hprompt : Prompt decodeFrame c a) :
    Kept c' where
  leaving := by
    intro r o ho
    obtain hsame | ⟨m,_,hmove⟩ | ⟨kind,_,_,he⟩ | ⟨id,_,he⟩ | ⟨_,he⟩ | ⟨o',he,_⟩ := step_request h r
    · rw [hsame] at ho ⊢
      exact hk.leaving r o ho
    · exact leaves_move hmove (hk.leaving r) o ho
    · rw [he] at ho
      cases ho
    · rw [he] at ho
      cases ho
    · rw [he] at ho
      cases ho
    · rw [he] at ho
      cases ho
  late := by
    intro r hr
    by_cases hold : c.routed r = none
    · obtain ⟨hsame,_⟩ | ⟨item,rfl,hrd,rfl⟩ := step_routed h
      · rw [hsame] at hr
        exact absurd hold hr
      · rw [(read_frame c item).1]
        obtain ⟨_,⟨hsame,_⟩ | ⟨line,id,resp,r0,_,_,hget,_,_,hupd⟩⟩ := read_cases c item
        · rw [hsame] at hr
          exact absurd hold hr
        · by_cases hr0 : r = r0
          · rw [hr0]
            exact hs.late hget
          · rw [hupd,Function.update_of_ne hr0] at hr
            exact absurd hold hr
    · exact (early_step h (hk.late r hold)).1
  answered := by
    intro r resp hkind hr
    have hkeep : c.routed r = some resp → Answered c' r resp := by
      intro hold
      have hlate := hk.late r (by rw [hold]; simp)
      have hcall : (c.requests r).kind = .call := by
        rw [← (early_step h hlate).2.1]
        exact hkind
      exact answered_step hs h hprompt hcall hold (hk.answered r resp hcall hold)
    obtain ⟨hsame,_⟩ | ⟨item,rfl,hrd,rfl⟩ := step_routed h
    · rw [hsame] at hr
      exact hkeep hr
    · obtain ⟨_,⟨hsame,_⟩ | ⟨line,id,resp',r0,rfl,hroute,hget,hctx,hdel,hupd⟩⟩ := read_cases c item
      · rw [hsame] at hr
        exact hkeep hr
      · by_cases hr0 : r = r0
        · subst hr0
          rw [hupd,Function.update_self] at hr
          cases hr
          rw [(read_frame c _).1] at hkind
          refine .inr ⟨?_,.inl hdel⟩
          rw [(read_frame c _).1]
          obtain ⟨_,_,hheld | hover⟩ := hs.entry id r hget
          · cases hp : (c.requests r).phase with
            | registered => exact .inl rfl
            | waiting => exact .inr rfl
            | leaving o =>
              obtain ⟨err,rfl⟩ | ⟨_,hended⟩ | hinit := hk.leaving r o hp
              · exact absurd hp (hprompt id resp r err hroute hget)
              · rw [hctx] at hended
                cases hended
              · rw [hkind] at hinit
                cases hinit
            | idle => rw [hp] at hheld; cases hheld
            | begun => rw [hp] at hheld; cases hheld
            | opened => rw [hp] at hheld; cases hheld
            | live => rw [hp] at hheld; cases hheld
            | numbered => rw [hp] at hheld; cases hheld
            | returned o => rw [hp] at hheld; cases hheld
          · rw [hrd] at hover
            cases hover.2
        · rw [hupd,Function.update_of_ne hr0] at hr
          exact hkeep hr

/-- Every step of a run is prompt. -/
def PromptRun (decodeFrame : Bytes → Decoded) : Client → List Action → Prop
  | _,[] => True
  | c,a :: as => Prompt decodeFrame c a ∧ ∀ c', c.step decodeFrame a = some c' →
    PromptRun decodeFrame c' as

lemma run_kept {actions : List Action} (hs : Sound decodeFrame c) (hk : Kept c)
    (hrun : c.run decodeFrame actions = some c')
    (hprompt : PromptRun decodeFrame c actions) : Kept c' := by
  induction actions generalizing c with
  | nil =>
    cases hrun
    exact hk
  | cons a as ih =>
    obtain ⟨c1,hstep,hrest⟩ := Option.bind_eq_some_iff.mp hrun
    exact ih (hs.step hstep) (hk.step hs hstep hprompt.1) hrest (hprompt.2 c1 hstep)

/-- What was heard was read. -/
lemma step_heard (h : c.step decodeFrame a = some c') {line : Bytes} (hl : line ∈ c'.heard) :
    line ∈ c.heard ∨ a = .read (.line line) := by
  obtain ⟨_,hsame⟩ | ⟨item,rfl,_,rfl⟩ := step_routed h
  · rw [hsame] at hl
    exact .inl hl
  · obtain hsame | ⟨bytes,rfl,hmore⟩ := (read_frame c item).2.2
    · rw [hsame] at hl
      exact .inl hl
    · rw [hmore,List.mem_append,List.mem_singleton] at hl
      exact hl.imp_right (fun he => by rw [he])

lemma run_heard {actions : List Action} (hrun : c.run decodeFrame actions = some c') {line : Bytes}
    (hl : line ∈ c'.heard) :
    line ∈ c.heard ∨ Action.read (.line line) ∈ actions := by
  induction actions generalizing c with
  | nil =>
    cases hrun
    exact .inl hl
  | cons a as ih =>
    obtain ⟨c1,hstep,hrest⟩ := Option.bind_eq_some_iff.mp hrun
    obtain hmid | hmem := ih hrest
    · refine (step_heard hstep hmid).imp_right (fun he => ?_)
      rw [he]
      exact List.mem_cons_self
    · exact .inr (List.mem_cons_of_mem _ hmem)

end answered

/-- In every run a call that succeeds returns the result of a line with the id of its own request,
at most one reply is sent to a request and none of these sends blocks or meets a closed channel. In
a prompt run a reply that was routed to a call before its context ended is what the call returns, or
is on its way there. -/
theorem call_returns_own_reply (decodeFrame : Bytes → Decoded) (decodes : ℕ → Bytes → Bool)
    (actions : List Action)
    (c : Client) (hrun : Client.start.run decodeFrame actions = some c) :
    (∀ r o result, (c.requests r).phase = .returned o → replyResult (decodes r) o = .ok result →
      ∃ line resp hasPayload, Action.read (.line line) ∈ actions ∧
      decodeFrame line = .frame resp "" hasPayload ∧
        numericID resp.id = some (c.requests r).id ∧ resp.error = none ∧ resp.result = result) ∧
    (∀ r, c.sends r ≤ 1) ∧
    (∀ r reply, c.reader.bound r = some reply → ((c.chans r).send reply).isSome) ∧
    (PromptRun decodeFrame Client.start actions → ∀ r resp, (c.requests r).kind = .call →
      c.routed r = some resp →
      Answered c r resp) := by
  have hs := run_sound Sound.start hrun
  refine ⟨?_,hs.once,?_,?_⟩
  · intro r o result ho hresult
    cases o with
    | replied reply =>
      cases reply with
      | server resp =>
        obtain ⟨line,hl,hp,hdec,hid⟩ := hs.answer r resp (by rw [ho]; rfl)
        have hmem := (run_heard hrun hl).resolve_left (by simp [Client.start])
        refine ⟨line,resp,hp,hmem,hdec,hid,?_⟩
        unfold replyResult at hresult
        dsimp only at hresult
        cases herr : resp.error with
        | some err =>
          rw [herr] at hresult
          cases hresult
        | none =>
          rw [herr] at hresult
          dsimp only at hresult
          split_ifs at hresult
          cases hresult
          exact ⟨rfl,rfl⟩
      | synthetic reason => cases hresult
    | sendFailed err => cases hresult
    | ctxEnded => cases hresult
    | serverExited => cases hresult
    | aborted => cases hresult
    | cut => cases hresult
  · intro r reply hb
    have hr : r ∈ c.reader.hand := by
      cases hrd : c.reader with
      | delivering r0 resp =>
        rw [hrd,Reader.bound] at hb
        split_ifs at hb with he
        exact List.mem_singleton.mpr he
      | failing left reason =>
        rw [hrd,Reader.bound] at hb
        split_ifs at hb with he
        exact he
      | reading => rw [hrd] at hb; cases hb
      | ended => rw [hrd] at hb; cases hb
      | flushed => rw [hrd] at hb; cases hb
      | finished => rw [hrd] at hb; cases hb
    rw [(hs.hand r hr).1.1]
    rfl
  · intro hprompt
    exact (run_kept Sound.start Kept.start hrun hprompt).answered

/-- The reply of a server that answers its first request with 7. -/
def sevenReply : Response := ⟨"2.0",.number 1,[55],none⟩

def sevenLine : Bytes := ascii "\x7b\"jsonrpc\":\"2.0\",\"id\":1,\"result\":7\x7d"

def decodeSeven (line : Bytes) : Decoded :=
  if line = sevenLine then .frame sevenReply "" true else .invalid

/-- One call is sent and its reply delivered. -/
def sevenActions : List Action :=
  [.begin 0 .call,.move 0 .checkClosed,.move 0 .checkDone,.number 0,.register 0,
    .move 0 (.write .ok),
   .read (.line sevenLine),.deliver]

theorem call_returns_own_reply_seven :
    ∃ c, Client.start.run decodeSeven (sevenActions ++ [.receive 0]) = some c ∧
    ∃ line resp hasPayload, Action.read (.line line) ∈ sevenActions ++ [.receive 0] ∧
      decodeSeven line = .frame resp "" hasPayload ∧ numericID resp.id = some (c.requests 0).id ∧
      resp.error = none ∧
      resp.result = [55] := by
  have hrun : (Client.start.run decodeSeven (sevenActions ++ [.receive 0])).map (fun c =>
    (c.requests 0).phase) =
      some (.returned (.replied (.server sevenReply))) := by decide
  obtain ⟨c,hc,hphase⟩ := Option.map_eq_some_iff.mp hrun
  exact ⟨c,hc,(call_returns_own_reply decodeSeven (fun _ _ => true) _ c hc).1 0 _ [55] hphase
    (by decide)⟩

/-- A reply that was delivered while stdout was open and the context had not ended is lost if the
stream ends before the call is scheduled: of the channels that are ready it may choose that of the
end. -/
theorem delivered_reply_lost :
    ∃ c, Client.start.run decodeSeven (sevenActions ++ [.eof,.flush,.finish,.move 0 .seeDone]) =
    some c ∧
    (c.requests 0).kind = .call ∧ c.routed 0 = some sevenReply ∧
    (c.chans 0).buffer = some (.server sevenReply) ∧
    (c.requests 0).ctxEnded = false ∧ (c.requests 0).phase = .returned .serverExited ∧
    ¬ Answered c 0 sevenReply := by
  have hrun : (Client.start.run decodeSeven (sevenActions ++
    [.eof,.flush,.finish,.move 0 .seeDone])).map
      (fun c => ((c.requests 0).kind,c.routed 0,(c.chans 0).buffer,(c.requests 0).ctxEnded,
        (c.requests 0).phase)) =
      some (.call,some sevenReply,some (.server sevenReply),false,
        .returned .serverExited) := by decide
  obtain ⟨c,hc,hfacts⟩ := Option.map_eq_some_iff.mp hrun
  simp only [Prod.mk.injEq] at hfacts
  obtain ⟨hkind,hrouted,hbuffer,hctx,hphase⟩ := hfacts
  refine ⟨c,hc,hkind,hrouted,hbuffer,hctx,hphase,?_⟩
  intro ha
  have := ha.phase
  rw [hphase] at this
  simp at this

end Manvi.Mcp
