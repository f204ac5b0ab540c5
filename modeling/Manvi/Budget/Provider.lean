import Manvi.Budget.Cap
import Manvi.Transport.AttemptGate

/-! A provider metered against the ledger: each attempt is reserved before it is sent, and resolved
by the transport, by the provider's error path, or by the stream that it answered with. -/
namespace Manvi.Budget
open Manvi.Program Manvi.Transport

/-- One locked change of the file: it is read and checked, changed, checked and written back. -/
def locked (limit : ℤ) (s : Snapshot) (op : Op) : Except String Snapshot := do
  validate s
  update limit s op

/-- Everything else that meets the ledger while a call runs: what other handles change before each
of its own changes, whether that change gets the lock and the file, and what it reads of the
machine. -/
structure Elsewhere where
  others : ℕ → List (ℤ × Op)
  granted : ℕ → Bool
  gone : ℕ → ℤ → Bool
  now : ℕ → ℤ

/-- A change by another handle, if it goes through. -/
def otherwise (s : Snapshot) (other : ℤ × Op) : Snapshot :=
  match locked other.1 s other.2 with
  | .ok next => next
  | .error _ => s

/-- The ledger as a call uses it: its changes so far, the attempt it reserved last, all that it
reserved, and whether recording a result failed. -/
structure Account where
  ledger : Snapshot
  tick : ℕ
  last : ℕ
  created : List ℕ
  failed : Bool

/-- What a call is metered with. -/
structure Metering where
  limit : ℤ
  self : ℤ
  model : String
  reserve : ℕ → Option ℤ
  rejectionUnbilled : ℤ → Bool

namespace Account
variable (w : Elsewhere) (m : Metering)

/-- The ledger as the next change finds it. -/
def found (a : Account) : Snapshot := (w.others a.tick).foldl otherwise a.ledger

/-- Change the ledger, and whether that went through. -/
def change (op : Op) (a : Account) : Bool × Account :=
  let a' := { a with ledger := a.found w, tick := a.tick+1 }
  if w.granted a.tick then
    match locked m.limit (a.found w) op with
    | .ok next => (true,{ a' with ledger := next })
    | .error _ => (false,a')
  else (false,a')

/-- Record how an attempt went. -/
def resolve (op : Op) (a : Account) : Bool × Account :=
  let r := a.change w m op
  if r.1 then r else (false,{ r.2 with failed := true })

/-- Reserve for every attempt before it is sent, and record how it went. -/
def gate : Gate Account ℕ where
  admits info a :=
    match m.reserve info.requestBytes with
    | none => (none,a)
    | some amount =>
      let r := a.change w m (.reserve m.self (w.gone a.tick) (w.now a.tick) m.model amount)
      if r.1 then
        let id := (a.found w).nextID
        (some (some id),{ r.2 with last := id, created := r.2.created ++ [id] })
      else (none,r.2)
  finish id result a :=
    a.resolve w m (.transportResult id result.state
      (result.state = .rejected && m.rejectionUnbilled result.status))

end Account

/-- What the adapter under the meter does with a request: whether it can be sent at all, where it is
sent, and where it is sent again when a failure asks for that. It may yet give up on a stream. -/
structure Adapter where
  builds : Bool
  primary : Post
  fallback : Option Post
  failsOver : StreamError → Bool
  givesUp : Bool

section
variable (w : Elsewhere) (m : Metering)

def adapterStream (a : Adapter) : Prog (Gated Account) StreamError Unit :=
  if !a.builds then Prog.exit .request
  else do
    Prog.rescue (postStream (Account.gate w m) a.primary) (fun e =>
      match a.fallback with
      | none => Prog.exit e
      | some p => if a.failsOver e then postStream (Account.gate w m) p else Prog.exit e)
    Prog.when (a.givesUp = true) (Prog.exit .request)

/-- Send a metered request. When no stream comes back, the last attempt keeps its reservation. -/
def providerStream (admissible : Bool) (a : Adapter) : Prog (Gated Account) StreamError Unit :=
  if !admissible then Prog.exit .request
  else Prog.rescue (adapterStream w m a) (fun e => do
    let last ← Prog.read (fun s : Gated Account => s.state.last)
    Prog.when (last ≠ 0) (Prog.modify (fun s => { s with
      state := (s.state.resolve w m (.retain last)).2 }))
    Prog.exit e)

/-- A call on the stream that came back. Its response is answered with usage, or is not. -/
inductive Read (U : Type) where
  | next
  | response (cancelled : Bool) (usage : Option U)
  | close

variable {U : Type} (charge : U → Option ℤ) (partialBound : ℕ → ℤ) (id : ℕ)

/-- Settle an attempt from its usage, or retain its reservation. -/
def resolveStream (usage : Option U) (a : Account) : Account :=
  match usage with
  | none => (a.resolve w m (.retainAt id (partialBound a.tick))).2
  | some u =>
    match charge u with
    | none => (a.resolve w m (.retain id)).2
    | some n => (a.resolve w m (.settle id n)).2

/-- The once-only resolution of a stream, whichever call reaches it first. -/
def readStream (s : Bool × Account) : Read U → Bool × Account
  | .next => s
  | .response cancelled usage =>
    if s.1 then s
    else (true,resolveStream w m charge partialBound id (if cancelled then none else usage) s.2)
  | .close => if s.1 then s else (true,resolveStream w m charge partialBound id none s.2)

def Read.resolves : Read U → Bool
  | .next => false
  | _ => true

end

/-- A metered call from its request to the last call on its stream. -/
def meteredCall {U : Type} (w : Elsewhere) (m : Metering) (charge : U → Option ℤ)
    (partialBound : ℕ → ℤ) (admissible : Bool)
    (adapter : Adapter) (reads : List (Read U)) (a : Account) : Account :=
  let r := providerStream w m admissible adapter ⟨a,[]⟩
  match r.1 with
  | .error _ => r.2.state
  | .ok _ => (reads.foldl (readStream w m charge partialBound r.2.state.last) (false,r.2.state)).2

/-! What a change does to the attempts in flight. -/

section
open Snapshot
variable {limit : ℤ} {s s' : Snapshot} {op : Op}

/-- No attempt is put in flight. -/
structure Shrinks (s s' : Snapshot) : Prop where
  nextID : s'.nextID = s.nextID
  ids : s'.ids ⊆ s.ids

/-- No attempt is put in flight, and one is in flight no more. -/
structure Drops (id : ℕ) (s s' : Snapshot) : Prop extends Shrinks s s' where
  gone : s.ids.Nodup → id ∉ s'.ids

lemma drops_remove {id : ℕ} {a : Attempt} (h : s.find id = some a) (hnext : s'.nextID = s.nextID)
    (hids : s'.ids = (s.remove id).ids) : Drops id s s' := by
  have hperm := ids_remove h
  refine ⟨⟨hnext,?_⟩,?_⟩
  · rw [hids]
    exact fun _ hmem => hperm.subset (List.mem_cons_of_mem _ hmem)
  · intro hnodup
    rw [hids]
    exact (List.nodup_cons.mp (hperm.nodup_iff.mpr hnodup)).1

lemma drops_retainAt {id : ℕ} {bound : ℤ} (h : retainAt id bound s = .ok s') : Drops id s s' := by
  unfold retainAt at h
  cases hfind : s.find id with
  | none =>
    rw [hfind] at h
    cases h
    refine ⟨⟨rfl,fun _ hmem => hmem⟩,fun _ hmem => ?_⟩
    obtain ⟨a,ha,hid⟩ := List.mem_map.mp hmem
    have hnone := List.find?_eq_none.mp hfind a ha
    simp [hid] at hnone
  | some a =>
    rw [hfind] at h
    dsimp only at h
    split_ifs at h <;> cases h <;> exact drops_remove hfind rfl rfl

lemma drops_settle {id : ℕ} {charge : ℤ} (h : settle id charge s = .ok s') : Drops id s s' := by
  unfold settle at h
  by_cases hneg : charge < 0
  · rw [if_pos hneg] at h
    cases h
  rw [if_neg hneg] at h
  cases hfind : s.find id with
  | none =>
    rw [hfind] at h
    cases h
  | some a =>
    rw [hfind] at h
    dsimp only at h
    split_ifs at h <;> cases h <;> exact drops_remove hfind rfl rfl

lemma drops_transportResult {id : ℕ} {state : AttemptState} {refund : Bool}
    (hstate : state ≠ .accepted)
    (h : transportResult id state refund s = .ok s') : Drops id s s' := by
  unfold transportResult at h
  cases hfind : s.find id with
  | none =>
    rw [hfind] at h
    cases h
  | some a =>
    rw [hfind] at h
    dsimp only at h
    by_cases hreserved : a.state ≠ .reserved
    · rw [if_pos hreserved] at h
      cases h
    rw [if_neg hreserved] at h
    cases state with
    | accepted => exact absurd rfl hstate
    | other _ => cases h
    | notSent =>
      cases h
      exact drops_remove hfind rfl rfl
    | rejected =>
      dsimp only at h
      split_ifs at h <;> cases h <;> exact drops_remove hfind rfl rfl
    | unknown =>
      cases h
      exact drops_remove hfind rfl rfl

lemma shrinks_transportResult {id : ℕ} {state : AttemptState} {refund : Bool}
    (h : transportResult id state refund s = .ok s') : Shrinks s s' := by
  by_cases hstate : state = .accepted
  · subst hstate
    unfold transportResult at h
    cases hfind : s.find id with
    | none =>
      rw [hfind] at h
      cases h
    | some a =>
      rw [hfind] at h
      dsimp only at h
      split_ifs at h
      cases h
      refine ⟨rfl,?_⟩
      intro id' hid
      simp only [ids,List.map_map,List.mem_map] at hid ⊢
      obtain ⟨b,hb,rfl⟩ := hid
      refine ⟨b,hb,?_⟩
      dsimp only [Function.comp]
      split_ifs <;> rfl
  · exact (drops_transportResult hstate h).toShrinks

lemma shrinks_reclaimDead (self : ℤ) (gone : ℤ → Bool) (s : Snapshot) :
    Shrinks s (reclaimDead self gone s) := by
  have hfold : ∀ (dead : List Attempt) (s : Snapshot),
      (dead.foldl (fun s a => s.retainAmount a.reservedNanoUSD) s).nextID = s.nextID := by
    intro dead
    induction dead with
    | nil => exact fun _ => rfl
    | cons a dead ih => exact fun s => ih (s.retainAmount a.reservedNanoUSD)
  refine ⟨hfold _ s,?_⟩
  intro id hid
  simp only [ids,reclaimDead,List.mem_map,List.mem_filter] at hid ⊢
  obtain ⟨a,⟨ha,_⟩,hid⟩ := hid
  exact ⟨a,ha,hid⟩

/-- A reservation puts one attempt in flight, under the next identifier. -/
lemma ids_reserve {self now amount : ℤ} {gone : ℤ → Bool} {model : String}
    (h : reserve limit self gone now model amount s = .ok s') :
    s'.ids ⊆ s.ids ++ [s.nextID] ∧ s.nextID ∈ s'.ids := by
  unfold reserve at h
  dsimp only at h
  split_ifs at h
  cases h
  have hshrinks := shrinks_reclaimDead self gone s
  simp only [ids,List.map_append,List.map_cons,List.map_nil,hshrinks.nextID]
  refine ⟨?_,by simp⟩
  exact List.append_subset.mpr ⟨fun id hid => List.mem_append_left _ (hshrinks.ids hid),by simp⟩

/-- What goes through a locked change. -/
lemma locked_ok (h : locked limit s op = .ok s') :
    Valid s ∧ Valid s' ∧ mutate limit s op = .ok s' := by
  unfold locked at h
  cases hs : validate s with
  | error _ =>
    rw [hs] at h
    cases h
  | ok _ =>
    rw [hs] at h
    obtain ⟨hmutate,hvalid⟩ := update_ok h
    exact ⟨valid_of_validate hs,valid_of_validate hvalid,hmutate⟩

/-- Identifiers are never used again. -/
structure Moves (s s' : Snapshot) : Prop where
  nextID : s.nextID ≤ s'.nextID
  ids : ∀ id ∈ s'.ids, id < s.nextID → id ∈ s.ids

lemma Shrinks.moves (h : Shrinks s s') : Moves s s' := ⟨h.nextID.ge,fun _ hid _ => h.ids hid⟩

lemma moves_of_locked (h : locked limit s op = .ok s') : Moves s s' := by
  obtain ⟨_,hvalid,h⟩ := locked_ok h
  cases op with
  | reserve self gone now model amount =>
    obtain ⟨hsub,hmem⟩ := ids_reserve h
    obtain ⟨a,ha,haid⟩ := List.mem_map.mp hmem
    have hknown := (hvalid.known a ha).2
    refine ⟨by omega,?_⟩
    intro id hid hlt
    have hold := hsub hid
    rw [List.mem_append,List.mem_singleton] at hold
    obtain hold | rfl := hold
    · exact hold
    · exact absurd hlt (Nat.lt_irrefl _)
  | transportResult id state refund => exact (shrinks_transportResult h).moves
  | settle id charge => exact (drops_settle h).moves
  | retain id => exact (drops_retainAt h).moves
  | retainAt id bound => exact (drops_retainAt h).moves
  | reconcile self gone =>
    cases h
    exact (shrinks_reclaimDead self gone s).moves

end

/-! What a call leaves in flight. -/

namespace Account
variable {w : Elsewhere} {m : Metering} {a : Account} {ids : List ℕ}

/-- Of what the call reserved, only these attempts can be in flight. -/
structure Open (ids : List ℕ) (a : Account) : Prop where
  issued : ∀ id ∈ a.created, id < a.ledger.nextID
  inFlight : ∀ id ∈ a.ledger.ids, id ∈ a.created → id ∈ ids

/-- The same, unless recording a result failed. -/
def Sound (ids : List ℕ) (a : Account) : Prop := a.failed = true ∨ a.Open ids

lemma Open.moves {a' : Account} (h : a.Open ids) (hmoves : Moves a.ledger a'.ledger)
    (hcreated : a'.created = a.created) :
    a'.Open ids := by
  refine ⟨?_,?_⟩
  · intro id hid
    rw [hcreated] at hid
    exact (h.issued id hid).trans_le hmoves.nextID
  · intro id hid hcr
    rw [hcreated] at hcr
    exact h.inFlight id (hmoves.ids id hid (h.issued id hcr)) hcr

/-- What other handles do puts none of the call's attempts in flight. -/
lemma moves_others (s : Snapshot) (others : List (ℤ × Op)) :
    Moves s (others.foldl otherwise s) := by
  induction others generalizing s with
  | nil => exact ⟨le_rfl,fun _ hid _ => hid⟩
  | cons other others ih =>
    have hrest := ih (otherwise s other)
    have hfirst : Moves s (otherwise s other) := by
      unfold otherwise
      cases h : locked other.1 s other.2 with
      | ok next => exact moves_of_locked h
      | error _ => exact ⟨le_rfl,fun _ hid _ => hid⟩
    refine ⟨hfirst.nextID.trans hrest.nextID,?_⟩
    intro id hid hlt
    exact hfirst.ids id (hrest.ids id hid (hlt.trans_le hfirst.nextID)) hlt

lemma Open.found {a' : Account} (h : a.Open ids) (hledger : a'.ledger = a.found w)
    (hcreated : a'.created = a.created) :
    a'.Open ids := by
  refine h.moves ?_ hcreated
  rw [hledger]
  exact moves_others a.ledger (w.others a.tick)

lemma change_cases (op : Op) (a : Account) :
    (∃ s', locked m.limit (a.found w) op = .ok s' ∧
      a.change w m op = (true,{ a with ledger := s', tick := a.tick+1 })) ∨
    a.change w m op = (false,{ a with ledger := a.found w, tick := a.tick+1 }) := by
  unfold change
  by_cases hgranted : w.granted a.tick = true
  · rw [if_pos hgranted]
    cases h : locked m.limit (a.found w) op with
    | ok s' => exact .inl ⟨s',rfl,rfl⟩
    | error _ => exact .inr rfl
  · rw [if_neg hgranted]
    exact .inr rfl

lemma resolve_cases (op : Op) (a : Account) :
    (∃ s', locked m.limit (a.found w) op = .ok s' ∧
      a.resolve w m op = (true,{ a with ledger := s', tick := a.tick+1 })) ∨
    a.resolve w m op = (false,
      { a with ledger := a.found w, tick := a.tick+1, failed := true }) := by
  unfold resolve
  obtain ⟨s',hlocked,hchange⟩ | hchange := change_cases (w := w) (m := m) op a
  · rw [hchange]
    exact .inl ⟨s',hlocked,rfl⟩
  · rw [hchange]
    exact .inr rfl

/-- An attempt is reserved under a new identifier, or nothing is. -/
lemma admit_cases (h : a.Sound []) (info : AttemptInfo) :
    (∃ a', (gate w m).admits info a = (none,a') ∧ a'.Sound []) ∨
    ∃ id a', (gate w m).admits info a = (some (some id),a') ∧ a'.last = id ∧ id ≠ 0 ∧
    a'.Sound [id] := by
  unfold gate
  dsimp only
  cases m.reserve info.requestBytes with
  | none => exact .inl ⟨a,rfl,h⟩
  | some amount =>
    dsimp only
    obtain ⟨s',hlocked,hchange⟩ | hchange := change_cases (w := w) (m := m)
      (.reserve m.self (w.gone a.tick) (w.now a.tick) m.model amount) a
    · rw [hchange]
      obtain ⟨_,hvalid,hmutate⟩ := locked_ok hlocked
      obtain ⟨hsub,hmem⟩ := ids_reserve hmutate
      obtain ⟨x,hx,hxid⟩ := List.mem_map.mp hmem
      have hknown := hvalid.known x hx
      refine .inr ⟨(a.found w).nextID,_,rfl,rfl,by omega,?_⟩
      refine h.imp_right (fun hopen => ?_)
      have hfound : { a with ledger := a.found w }.Open [] := hopen.found rfl rfl
      refine ⟨?_,?_⟩
      · intro id hid
        rw [List.mem_append,List.mem_singleton] at hid
        obtain hid | rfl := hid
        · have hissued := hfound.issued id hid
          change id < s'.nextID
          change id < (a.found w).nextID at hissued
          omega
        · change (a.found w).nextID < s'.nextID
          omega
      · intro id hid hcreated
        rw [List.mem_singleton]
        rw [List.mem_append,List.mem_singleton] at hcreated
        obtain hcreated | rfl := hcreated
        · have hold := hsub hid
          rw [List.mem_append,List.mem_singleton] at hold
          obtain hold | rfl := hold
          · exact absurd (hfound.inFlight id hold hcreated) List.not_mem_nil
          · exact absurd (hfound.issued _ hcreated) (Nat.lt_irrefl _)
        · rfl
    · rw [hchange]
      refine .inl ⟨_,rfl,?_⟩
      exact h.imp_right (fun hopen => hopen.found rfl rfl)

/-- Recording a result of the only open attempt closes it. -/
lemma sound_resolve {id : ℕ} (h : a.Sound [id]) {op : Op}
    (hop : ∀ limit s s', mutate limit s op = .ok s' → Drops id s s') :
    (a.resolve w m op).2.Sound [] := by
  obtain ⟨s',hlocked,hresolve⟩ | hresolve := resolve_cases (w := w) (m := m) op a
  · rw [hresolve]
    refine h.imp_right (fun hopen => ?_)
    have hfound : { a with ledger := a.found w }.Open [id] := hopen.found rfl rfl
    obtain ⟨hvalid,_,hmutate⟩ := locked_ok hlocked
    have hdrops := hop _ _ _ hmutate
    have hmoved : { a with ledger := s', tick := a.tick+1 }.Open [id] :=
      hfound.moves hdrops.moves rfl
    refine ⟨hmoved.issued,?_⟩
    intro id' hid hcreated
    have hid' := hfound.inFlight id' (hdrops.ids hid) hcreated
    rw [List.mem_singleton] at hid'
    subst hid'
    exact absurd hid (hdrops.gone hvalid.distinct)
  · rw [hresolve]
    exact .inl rfl

lemma failed_of_resolve {op : Op} (h : (a.resolve w m op).1 = false) :
    (a.resolve w m op).2.failed = true := by
  obtain ⟨s',_,hresolve⟩ | hresolve := resolve_cases (w := w) (m := m) op a
  · rw [hresolve] at h
    cases h
  · rw [hresolve]

lemma last_resolve (op : Op) (a : Account) : (a.resolve w m op).2.last = a.last := by
  obtain ⟨s',_,hresolve⟩ | hresolve := resolve_cases (w := w) (m := m) op a
  · rw [hresolve]
  · rw [hresolve]

/-- Recording anything leaves no more attempts open. -/
lemma sound_kept (h : a.Sound ids) (op : Op) : (a.resolve w m op).2.Sound ids := by
  obtain ⟨s',hlocked,hresolve⟩ | hresolve := resolve_cases (w := w) (m := m) op a
  · rw [hresolve]
    refine h.imp_right (fun hopen => ?_)
    have hfound : { a with ledger := a.found w }.Open ids := hopen.found rfl rfl
    exact hfound.moves (moves_of_locked hlocked) rfl
  · rw [hresolve]
    exact .inl rfl

lemma not_accepted_of_some (reply : Option Reply) (failure : Failure) :
    (attemptResult reply (some failure)).state ≠ .accepted := by
  unfold attemptResult
  dsimp only
  split_ifs <;> simp

/-- The request is answered and its attempt open, or it is not and nothing is. -/
lemma postStream_sound (p : Post) :
    Triple (fun s : Gated Account => s.state.Sound []) (postStream (gate w m) p)
      (fun _ s => s.state.last ≠ 0 ∧ s.state.Sound [s.state.last]) (fun _ s =>
        s.state.Sound []) := by
  refine postStream_rule (I := fun _ (s : Gated Account) => s.state.Sound [])
    (A := fun _ callback (s : Gated Account) => ∃ id, callback = some id ∧ s.state.last = id ∧
      id ≠ 0 ∧ s.state.Sound [id]) rfl ?_ ?_ ?_
    (fun _ _ _ _ hs => hs)
  · intro n _ s hs
    unfold admitAttempt
    obtain ⟨a',hadm,hsound⟩ | ⟨id,a',hadm,hlast,hid,hsound⟩ :=
      admit_cases (w := w) (m := m) hs ⟨n,p.requestBytes⟩
    · rw [hadm]
      refine ⟨?_,?_⟩
      · intro _ s' he
        cases he
      · intro e s' he
        cases he
        exact hsound
    · rw [hadm]
      refine ⟨?_,?_⟩
      · intro _ s' he
        cases he
        exact ⟨id,rfl,hlast,hid,hsound⟩
      · intro e s' he
        cases he
  · rintro n _ callback reply s ⟨id,rfl,hlast,hid,hsound⟩
    refine finishAttempt_rule (P := fun a : Account => a.last = id ∧ a.Sound [id])
      (Q := fun a => a.last ≠ 0 ∧ a.Sound [a.last]) (E := Account.Sound []) ?_ ?_ s ⟨hlast,hsound⟩
    · rintro a ⟨hlast,hsound⟩ _
      have hkept : ((gate w m).finish id (attemptResult (some reply) none) a).2.last = id :=
        (last_resolve _ a).trans hlast
      rw [hkept]
      exact ⟨hid,sound_kept hsound _⟩
    · exact fun a _ hfailed => .inl (failed_of_resolve hfailed)
  · rintro n _ callback reply failure s ⟨id,rfl,hlast,hid,hsound⟩
    refine finishAttempt_rule (P := Account.Sound [id]) (Q := Account.Sound [])
      (E := Account.Sound []) ?_ ?_ s hsound
    · intro a hsound _
      exact sound_resolve hsound (fun _ _ _ h =>
        drops_transportResult (not_accepted_of_some reply failure) h)
    · exact fun a _ hfailed => .inl (failed_of_resolve hfailed)

/-- The adapter's stream leaves the same, also when it is sent again or given up on. -/
lemma adapterStream_sound (adapter : Adapter) :
    Triple (fun s : Gated Account => s.state.Sound []) (adapterStream w m adapter)
      (fun _ s => s.state.Sound [s.state.last])
      (fun _ s => s.state.Sound [] ∨ s.state.last ≠ 0 ∧ s.state.Sound [s.state.last]) := by
  refine Triple.ite (fun _ => Triple.exit (fun _ hs => .inl hs)) (fun _ => ?_)
  have hsent : Triple (fun s : Gated Account => s.state.Sound [])
    (Prog.rescue (postStream (gate w m) adapter.primary) (fun e =>
      match adapter.fallback with
      | none => Prog.exit e
      | some p => if adapter.failsOver e then postStream (gate w m) p else Prog.exit e))
      (fun _ s => s.state.last ≠ 0 ∧ s.state.Sound [s.state.last]) (fun _ s =>
        s.state.Sound []) := by
    refine Triple.rescue (postStream_sound adapter.primary) (fun e => ?_)
    cases adapter.fallback with
    | none => exact Triple.exit (fun _ hs => hs)
    | some p =>
      exact Triple.ite (fun _ => postStream_sound p) (fun _ => Triple.exit (fun _ hs => hs))
  refine Triple.bind (hsent.weaken (fun _ hs => hs) (fun _ _ hs => hs) (fun _ _ hs => .inl hs))
    (fun _ => ?_)
  exact Triple.ite (fun _ => Triple.exit (fun _ hs => .inr hs)) (fun _ =>
    Triple.pure (fun _ hs => hs.2))

lemma providerStream_sound (admissible : Bool) (adapter : Adapter) :
    Triple (fun s : Gated Account => s.state.Sound []) (providerStream w m admissible adapter)
      (fun _ s => s.state.Sound [s.state.last]) (fun _ s => s.state.Sound []) := by
  refine Triple.ite (fun _ => Triple.exit (fun _ hs => hs)) (fun _ => ?_)
  refine Triple.rescue (adapterStream_sound adapter) (fun e => ?_)
  refine Triple.bind (Triple.read (Q := fun last s =>
    last = s.state.last ∧ (s.state.Sound [] ∨ s.state.last ≠ 0 ∧
      s.state.Sound [s.state.last])) (fun s hs => ⟨rfl,hs⟩))
    (fun last => ?_)
  refine Triple.bind (Q := fun _ (s : Gated Account) => s.state.Sound []) ?_ (fun _ =>
    Triple.exit (fun _ hs => hs))
  refine Triple.ite (fun _ => Triple.modify ?_) (fun hlast => Triple.pure ?_)
  · rintro s ⟨rfl,hsound | ⟨_,hsound⟩⟩
    · exact sound_kept hsound _
    · exact sound_resolve hsound (fun _ _ _ h => drops_retainAt h)
  · rintro s ⟨rfl,hsound | ⟨hne,_⟩⟩
    · exact hsound
    · exact absurd hne hlast

section
variable {U : Type} (charge : U → Option ℤ) (partialBound : ℕ → ℤ) {id : ℕ}

lemma resolveStream_sound (usage : Option U) (h : a.Sound [id]) :
    (resolveStream w m charge partialBound id usage a).Sound [] := by
  unfold resolveStream
  cases usage with
  | none => exact sound_resolve h (fun _ _ _ h => drops_retainAt h)
  | some u =>
    dsimp only
    cases charge u with
    | none => exact sound_resolve h (fun _ _ _ h => drops_retainAt h)
    | some n => exact sound_resolve h (fun _ _ _ h => drops_settle h)

/-- A stream is resolved by the first call that can. -/
def Reading (id : ℕ) (s : Bool × Account) : Prop := s.2.Sound (if s.1 then [] else [id])

lemma readStream_reading (read : Read U) {s : Bool × Account} (h : Reading id s) :
    Reading id (readStream w m charge partialBound id s read) ∧
      (readStream w m charge partialBound id s read).1 = (s.1 || read.resolves) := by
  obtain ⟨resolved,a⟩ := s
  cases resolved with
  | true =>
    cases read with
    | next => exact ⟨h,rfl⟩
    | response cancelled usage => exact ⟨h,rfl⟩
    | close => exact ⟨h,rfl⟩
  | false =>
    cases read with
    | next => exact ⟨h,rfl⟩
    | response cancelled usage => exact ⟨resolveStream_sound charge partialBound _ h,rfl⟩
    | close => exact ⟨resolveStream_sound charge partialBound _ h,rfl⟩

lemma readStream_foldl (reads : List (Read U)) {s : Bool × Account} (h : Reading id s) :
    Reading id (reads.foldl (readStream w m charge partialBound id) s) ∧
      (reads.foldl (readStream w m charge partialBound id) s).1 =
      (s.1 || reads.any Read.resolves) := by
  induction reads generalizing s with
  | nil => exact ⟨h,by simp⟩
  | cons read reads ih =>
    obtain ⟨hread,hresolved⟩ := readStream_reading (w := w) (m := m) charge partialBound read h
    obtain ⟨hreads,hrest⟩ := ih hread
    refine ⟨hreads,?_⟩
    rw [List.foldl_cons,hrest,hresolved,List.any_cons,Bool.or_assoc]

end

end Account

/-- Every attempt is resolved. Under the retry loop of any request, through any gate, each attempt
that is admitted is admitted once and its callback runs once, and at most as many are admitted as
the policy says, or one where it says less than one. And a metered call that ends without a stream,
or whose stream was read to its response or closed, has no attempt in flight then or later, whatever
other handles do with the ledger, unless one of its own writes to it failed. -/
theorem attempts_resolved :
    (∀ (σ F : Type) (g : Gate σ F) (p : Post) (s : Gated σ), ∃ results,
      results.length ≤ max 1 p.maxAttempts.toNat ∧
      (postStream g p s).2.events = s.events ++ attemptEvents 1 results) ∧
    ∀ (U : Type) (w : Elsewhere) (m : Metering) (charge : U → Option ℤ) (partialBound : ℕ →
      ℤ) (admissible : Bool)
      (adapter : Adapter) (reads : List (Read U)) (ledger : Snapshot) (later : List (ℤ × Op)),
      ((providerStream w m admissible adapter ⟨⟨ledger,0,0,[],false⟩,[]⟩).1.isOk = true →
        reads.any Read.resolves = true) →
      (meteredCall w m charge partialBound admissible adapter reads ⟨ledger,0,0,[],false⟩).failed =
      false →
      ∀ id ∈ (meteredCall w m charge partialBound admissible adapter reads ⟨ledger,0,0,[],
        false⟩).created,
        id ∉ (later.foldl otherwise
          (meteredCall w m charge partialBound admissible adapter reads ⟨ledger,0,0,[],
            false⟩).ledger).ids := by
  refine ⟨fun σ F g p s => postStream_events g p s,?_⟩
  intro U w m charge partialBound admissible adapter reads ledger later hread hfailed id hid hmem
  have hsound : (meteredCall w m charge partialBound admissible adapter reads ⟨ledger,0,0,[],
    false⟩).Sound [] := by
    have hstart : Account.Sound [] ⟨ledger,0,0,[],false⟩ := .inr ⟨by simp,by simp⟩
    obtain ⟨hok,herror⟩ := Account.providerStream_sound (w := w) (m := m) admissible adapter ⟨_,
      []⟩ hstart
    unfold meteredCall
    cases hrun : providerStream w m admissible adapter ⟨⟨ledger,0,0,[],false⟩,[]⟩ with
    | mk r s =>
      rw [hrun] at hread
      cases r with
      | error e => exact herror e s hrun
      | ok u =>
        obtain ⟨hreading,hresolved⟩ :=
          Account.readStream_foldl (w := w) (m := m) charge partialBound reads
          (s := (false,s.state)) (hok u s hrun)
        rw [hread rfl,Bool.or_true] at hresolved
        unfold Account.Reading at hreading
        rwa [hresolved] at hreading
  obtain hfail | hopen := hsound
  · rw [hfailed] at hfail
    cases hfail
  · have hmoves := Account.moves_others
      (meteredCall w m charge partialBound admissible adapter reads ⟨ledger,0,0,[],
        false⟩).ledger later
    exact absurd (hopen.inFlight id (hmoves.ids id hmem (hopen.issued id hid)) hid) List.not_mem_nil

/-- A ledger that nobody else uses. -/
def alone : Elsewhere := ⟨fun _ => [],fun _ => true,fun _ _ => false,fun _ => 0⟩

def sampleMetering : Metering := ⟨1000,1,"model",fun _ => some 10,fun _ => false⟩

/-- A request that is refused for its rate once, and then answered. -/
def retriedPost : Post :=
  ⟨2,100,true,false,fun n =>
    if n = 1 then ⟨false,.error ⟨429,"r1",false,false,false,false⟩,none,false⟩
      else ⟨false,.ok ⟨200,"r2"⟩,none,false⟩⟩

def retriedAdapter : Adapter := ⟨true,retriedPost,none,fun _ => false,false⟩

/-- Both attempts of a retried call are resolved once its response is read. -/
theorem attempts_resolved_retriedCall :
    (meteredCall alone sampleMetering (fun n : ℤ => some n) (fun _ => -1) true retriedAdapter
      [.next,.response false (some 5)] ⟨.empty,0,0,[],false⟩).created = [1,2] ∧
    ∀ id ∈ (meteredCall alone sampleMetering (fun n : ℤ => some n) (fun _ => -1) true retriedAdapter
        [.next,.response false (some 5)] ⟨.empty,0,0,[],false⟩).created,
      id ∉ (([] : List (ℤ × Op)).foldl otherwise
        (meteredCall alone sampleMetering (fun n : ℤ => some n) (fun _ => -1) true
        retriedAdapter [.next,.response false (some 5)] ⟨.empty,0,0,[],false⟩).ledger).ids :=
  ⟨by decide,attempts_resolved.2 ℤ alone sampleMetering _ _ true retriedAdapter _ .empty []
    (by decide) (by decide)⟩

/-- A gate that admits everything. -/
def openGate : Gate Unit Unit := ⟨fun _ _ => (some (some ()),()),fun _ _ _ => (true,())⟩

/-- Under a policy of no attempts one is admitted. -/
theorem zero_policy_admits_one :
    ¬ ∀ (g : Gate Unit Unit) (p : Post) (s : Gated Unit),
      (((postStream g p s).2.events.drop s.events.length).countP GateEvent.isAdmitted : ℤ) ≤
      p.maxAttempts := by
  intro h
  have hone := h openGate ⟨0,100,true,false,fun _ => ⟨false,.ok ⟨200,"r1"⟩,none,false⟩⟩ ⟨(),[]⟩
  have hcount : ((postStream openGate ⟨0,100,true,false,fun _ => ⟨false,.ok ⟨200,"r1"⟩,none,false⟩⟩
    ⟨(),[]⟩).2.events.drop
      ([] : List GateEvent).length).countP GateEvent.isAdmitted = 1 := by decide
  rw [hcount] at hone
  norm_num at hone

end Manvi.Budget
