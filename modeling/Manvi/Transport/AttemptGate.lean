import Manvi.Program.Triple
import Manvi.Budget.Ledger

/-! The retry loop of a streamed request, and the gate that admits each attempt and is told how it
went. -/
namespace Manvi.Transport
open Manvi.Program Manvi.Budget

/-- A failed attempt as the transport classifies it. -/
structure Failure where
  status : ℤ
  requestID : String
  inStream : Bool
  cancelled : Bool
  permanent : Bool
  notSent : Bool
  deriving Repr, DecidableEq

def retryableStatus (status : ℤ) : Bool :=
  status = 408 || status = 409 || status = 429 || status ≥ 500

def Failure.retryable (e : Failure) : Bool :=
  if e.cancelled || e.permanent then false else retryableStatus e.status || e.status = 0

/-- The head of a response that the server accepted. -/
structure Reply where
  status : ℤ
  requestID : String
  deriving Repr, DecidableEq

/-- How an attempt went, as its callback is told. -/
structure AttemptResult where
  state : AttemptState
  status : ℤ
  requestID : String
  deriving Repr, DecidableEq

def attemptResult (reply : Option Reply) (failure : Option Failure) : AttemptResult :=
  match failure with
  | some f =>
    ⟨if f.notSent then .notSent else if f.inStream then .unknown else if f.status ≠ 0 then
      .rejected else .unknown,
      f.status,f.requestID⟩
  | none =>
    match reply with
    | some r => ⟨.accepted,r.status,r.requestID⟩
    | none => ⟨.unknown,0,""⟩

structure AttemptInfo where
  number : ℕ
  requestBytes : ℕ
  deriving Repr, DecidableEq

/-- A gate over a state: it refuses an attempt, or admits it with or without a callback; and what a
callback does, which may fail. -/
structure Gate (σ F : Type) where
  admits : AttemptInfo → σ → Option (Option F) × σ
  finish : F → AttemptResult → σ → Bool × σ

/-- What a request comes back with when no stream does. The number is that of the attempts made. -/
inductive StreamError where
  | request
  | cancelled (attempts : ℕ)
  | denied (attempts : ℕ)
  | accounting (attempts : ℕ)
  | failed (failure : Failure) (attempts : ℕ)
  deriving Repr, DecidableEq

/-- What an attempt meets: a cancellation before it, what sending it gives, how a response to it is
judged, and a cancellation of the wait after it. -/
structure Attempting where
  cancelledBefore : Bool
  sends : Except Failure Reply
  judged : Option Failure
  cancelledWaiting : Bool

/-- One request: the policy's number of attempts, the size of its body, whether the body can be
encoded and whether responses are judged, and what its attempts meet. -/
structure Post where
  maxAttempts : ℤ
  requestBytes : ℕ
  encodes : Bool
  judges : Bool
  attempts : ℕ → Attempting

inductive GateEvent where
  | admitted (number : ℕ) (callback : Bool)
  | finished (number : ℕ) (result : AttemptResult)
  deriving Repr, DecidableEq

def GateEvent.isAdmitted : GateEvent → Bool
  | .admitted _ _ => true
  | .finished _ _ => false

/-- The gate's state, and what it was asked and told. -/
structure Gated (σ : Type) where
  state : σ
  events : List GateEvent

section
variable {σ F : Type} (g : Gate σ F)

def admitAttempt (info : AttemptInfo) : Prog (Gated σ) StreamError (Option F) := fun s =>
  match g.admits info s.state with
  | (none,state) => (.error (.denied (info.number-1)),{ s with state })
  | (some callback,state) => (.ok callback,
    ⟨state,s.events ++ [.admitted info.number callback.isSome]⟩)

def finishAttempt (callback : Option F) (reply : Option Reply) (failure : Option Failure)
    (number : ℕ) :
    Prog (Gated σ) StreamError Unit := fun s =>
  match callback with
  | none => (.ok (),s)
  | some finish =>
    let result := attemptResult reply failure
    let told : Gated σ := ⟨(g.finish finish result s.state).2,s.events ++ [.finished number result]⟩
    if (g.finish finish result s.state).1 then (.ok (),told) else (.error (.accounting number),told)

/-- Report a failed attempt, and go on to the next one, if there is one and the failure allows
it. -/
def failAttempt (callback : Option F) (reply : Option Reply) (failure : Failure) (number : ℕ)
    (cancelledWaiting : Bool)
    (next : Option (Prog (Gated σ) StreamError Unit)) : Prog (Gated σ) StreamError Unit := do
  finishAttempt g callback reply (some failure) number
  if !failure.retryable then Prog.exit (.failed failure number)
  else match next with
    | none => Prog.exit (.failed failure number)
    | some next => if cancelledWaiting then Prog.exit (.cancelled number) else next

/-- One attempt. -/
def attemptOnce (p : Post) (number : ℕ) (next : Option (Prog (Gated σ) StreamError Unit)) :
    Prog (Gated σ) StreamError Unit := do
  let met := p.attempts number
  if met.cancelledBefore then Prog.exit (.cancelled (number-1))
  else
    let callback ← admitAttempt g ⟨number,p.requestBytes⟩
    match met.sends with
    | .error failure => failAttempt g callback none failure number met.cancelledWaiting next
    | .ok reply =>
      match if p.judges then met.judged else none with
      | none => finishAttempt g callback (some reply) none number
      | some failure => failAttempt g callback (some reply) failure number met.cancelledWaiting next

/-- An attempt with so many more to follow it. -/
def attemptFrom (p : Post) : ℕ → ℕ → Prog (Gated σ) StreamError Unit
  | 0,number => attemptOnce g p number none
  | left+1,number => attemptOnce g p number (some (attemptFrom p left (number+1)))

/-- Send a request, again while its failures allow it, until it is answered with a stream. -/
def postStream (p : Post) : Prog (Gated σ) StreamError Unit :=
  if !p.encodes then Prog.exit .request else attemptFrom g p (p.maxAttempts-1).toNat 1

end

/-! A rule for the loop. -/

section
variable {σ F : Type} {g : Gate σ F} {p : Post} {last : ℕ} {I : ℕ → Gated σ → Prop}
    {A : ℕ → Option F → Gated σ → Prop}
  {S : Gated σ → Prop} {R : StreamError → Gated σ → Prop}

lemma failAttempt_rule {number : ℕ} {callback : Option F} {reply : Option Reply} {failure : Failure}
    {cancelled : Bool}
    {next : Option (Prog (Gated σ) StreamError Unit)}
    (hfail : Triple (A number callback) (finishAttempt g callback reply (some failure) number)
      (fun _ => I (number+1)) R)
    (hleave : ∀ e s, I (number+1) s → R e s)
    (hnext : ∀ x ∈ next, Triple (I (number+1)) x (fun _ => S) R) :
    Triple (A number callback) (failAttempt g callback reply failure number cancelled next)
    (fun _ => S) R := by
  refine Triple.bind hfail (fun _ => Triple.ite (fun _ => Triple.exit (fun s hs => hleave _ s hs))
    (fun _ => ?_))
  cases next with
  | none => exact Triple.exit (fun s hs => hleave _ s hs)
  | some x =>
    exact Triple.ite (fun _ => Triple.exit (fun s hs => hleave _ s hs)) (fun _ => hnext x rfl)

/-- What holds before every attempt, up to the last, holds however the request ends. -/
theorem attemptFrom_rule (hadm : ∀ n ≤ last,
    Triple (I n) (admitAttempt g ⟨n,p.requestBytes⟩) (fun callback => A n callback) R)
    (haccept : ∀ n ≤ last, ∀ callback reply,
      Triple (A n callback) (finishAttempt g callback (some reply) none n) (fun _ => S) R)
    (hfail : ∀ n ≤ last, ∀ callback reply failure,
      Triple (A n callback) (finishAttempt g callback reply (some failure) n) (fun _ => I (n+1)) R)
    (hleave : ∀ n ≤ last+1, ∀ e s, I n s → R e s) (left number : ℕ) (hlast : number+left = last) :
    Triple (I number) (attemptFrom g p left number) (fun _ => S) R := by
  have honce : ∀ (n : ℕ) (next : Option (Prog (Gated σ) StreamError Unit)), n ≤ last →
      (∀ x ∈ next, Triple (I (n+1)) x (fun _ => S) R) →
      Triple (I n) (attemptOnce g p n next) (fun _ => S) R := by
    intro n next hn hnext
    refine Triple.ite (fun _ => Triple.exit (fun s hs => hleave n (by omega) _ s hs)) (fun _ => ?_)
    refine Triple.bind (hadm n hn) (fun callback => ?_)
    cases (p.attempts n).sends with
    | error failure =>
      exact failAttempt_rule (hfail n hn _ _ _) (fun e s hs => hleave (n+1) (by omega) e s hs) hnext
    | ok reply =>
      cases if p.judges then (p.attempts n).judged else none with
      | none => exact haccept n hn callback reply
      | some failure =>
        exact failAttempt_rule (hfail n hn _ _ _) (fun e s hs =>
          hleave (n+1) (by omega) e s hs) hnext
  induction left generalizing number with
  | zero => exact honce number none (by omega) (by simp)
  | succ left ih =>
    refine honce number _ (by omega) ?_
    intro x hx
    cases hx
    exact ih (number+1) (by omega)

theorem postStream_rule (hlast : last = max 1 p.maxAttempts.toNat)
    (hadm : ∀ n ≤ last, Triple (I n) (admitAttempt g ⟨n,p.requestBytes⟩) (fun callback =>
      A n callback) R)
    (haccept : ∀ n ≤ last, ∀ callback reply,
      Triple (A n callback) (finishAttempt g callback (some reply) none n) (fun _ => S) R)
    (hfail : ∀ n ≤ last, ∀ callback reply failure,
      Triple (A n callback) (finishAttempt g callback reply (some failure) n) (fun _ => I (n+1)) R)
    (hleave : ∀ n ≤ last+1, ∀ e s, I n s → R e s) :
    Triple (I 1) (postStream g p) (fun _ => S) R := by
  refine Triple.ite (fun _ => Triple.exit (fun s hs => hleave 1 (by omega) _ s hs)) (fun _ => ?_)
  exact attemptFrom_rule hadm haccept hfail hleave _ 1 (by omega)

end

/-- A callback that goes through, or does not. -/
lemma finishAttempt_rule {σ F : Type} {g : Gate σ F} {P Q E : σ → Prop} {finish : F}
    {reply : Option Reply}
    {failure : Option Failure} {number : ℕ}
    (hok : ∀ x, P x → (g.finish finish (attemptResult reply failure) x).1 = true →
      Q (g.finish finish (attemptResult reply failure) x).2)
    (herror : ∀ x, P x → (g.finish finish (attemptResult reply failure) x).1 = false →
      E (g.finish finish (attemptResult reply failure) x).2) :
    Triple (fun s => P s.state) (finishAttempt g (some finish) reply failure number) (fun _ s =>
      Q s.state)
      (fun _ s => E s.state) := by
  intro s hs
  unfold finishAttempt
  dsimp only
  by_cases hfinish : (g.finish finish (attemptResult reply failure) s.state).1 = true
  · rw [if_pos hfinish]
    refine ⟨?_,?_⟩
    · intro _ s' he
      cases he
      exact hok s.state hs hfinish
    · intro e s' he
      cases he
  · rw [if_neg hfinish]
    rw [Bool.not_eq_true] at hfinish
    refine ⟨?_,?_⟩
    · intro _ s' he
      cases he
    · intro e s' he
      cases he
      exact herror s.state hs hfinish

/-! What the gate is asked and told. -/

/-- Attempts numbered from one on: each is admitted, and if it has a callback that is told once how
it went. -/
def attemptEvents : ℕ → List (Option AttemptResult) → List GateEvent
  | _,[] => []
  | number,none :: rest => .admitted number false :: attemptEvents (number+1) rest
  | number,some result :: rest => .admitted number true :: .finished number result :: attemptEvents
    (number+1) rest

@[simp] lemma attemptEvents_append (number : ℕ) (results results' : List (Option AttemptResult)) :
    attemptEvents number (results ++ results') =
      attemptEvents number results ++ attemptEvents (number+results.length) results' := by
  induction results generalizing number with
  | nil => rfl
  | cons result results ih =>
    have hnumber : number+(results.length+1) = number+1+results.length := by omega
    cases result with
    | none => simp only [List.cons_append,attemptEvents,ih,List.length_cons,hnumber]
    | some r => simp only [List.cons_append,attemptEvents,ih,List.length_cons,hnumber]

section
variable {σ F : Type} (g : Gate σ F)

/-- So many attempts were made. -/
def Made (before : List GateEvent) (made : ℕ) (s : Gated σ) : Prop :=
  ∃ results, results.length = made ∧ s.events = before ++ attemptEvents 1 results

/-- An attempt was admitted after so many others, and is not over. -/
def Making (before : List GateEvent) (made : ℕ) (callback : Bool) (s : Gated σ) : Prop :=
  ∃ results, results.length = made ∧
    s.events = before ++ attemptEvents 1 results ++ [.admitted (made+1) callback]

lemma Making.over {before : List GateEvent} {made : ℕ} {callback : Bool} {s : Gated σ}
    (h : Making before made callback s)
    (result : Option AttemptResult) {s' : Gated σ}
    (hevents : s'.events = s.events ++ (attemptEvents (made+1) [result]).tail)
    (hresult : result.isSome = callback) :
    Made before (made+1) s' := by
  obtain ⟨results,rfl,hs⟩ := h
  refine ⟨results ++ [result],by simp,?_⟩
  rw [hevents,hs,attemptEvents_append,Nat.add_comm 1,List.append_assoc,List.append_assoc]
  subst hresult
  cases result with
  | none => rfl
  | some r => rfl

lemma finishAttempt_made (callback : Option F) (reply : Option Reply) (failure : Option Failure)
    (before : List GateEvent)
    (made : ℕ) : Triple (Making (σ := σ) before made callback.isSome)
    (finishAttempt g callback reply failure (made+1))
      (fun _ => Made before (made+1)) (fun _ => Made before (made+1)) := by
  intro s hs
  unfold finishAttempt
  cases callback with
  | none =>
    refine ⟨?_,?_⟩
    · intro _ s' he
      cases he
      exact hs.over none (by simp [attemptEvents]) rfl
    · intro e s' he
      cases he
  | some finish =>
    have hover : Made before (made+1) (⟨(g.finish finish (attemptResult reply failure) s.state).2,
        s.events ++ [.finished (made+1) (attemptResult reply failure)]⟩ : Gated σ) :=
      hs.over (some (attemptResult reply failure)) rfl rfl
    dsimp only
    split_ifs
    · refine ⟨?_,?_⟩
      · intro _ s' he
        cases he
        exact hover
      · intro e s' he
        cases he
    · refine ⟨?_,?_⟩
      · intro _ s' he
        cases he
      · intro e s' he
        cases he
        exact hover

lemma admitAttempt_making (info : AttemptInfo) (before : List GateEvent) (made : ℕ)
    (hnumber : info.number = made+1) :
    Triple (Made (σ := σ) before made) (admitAttempt g info) (fun callback =>
      Making before made callback.isSome)
      (fun _ => Made before made) := by
  rintro s ⟨results,hlength,hevents⟩
  unfold admitAttempt
  cases hadm : g.admits info s.state with
  | mk answer state =>
    cases answer with
    | none =>
      refine ⟨?_,?_⟩
      · intro _ s' he
        cases he
      · intro e s' he
        cases he
        exact ⟨results,hlength,hevents⟩
    | some callback =>
      refine ⟨?_,?_⟩
      · intro _ s' he
        cases he
        exact ⟨results,hlength,by rw [hevents,hnumber]⟩
      · intro e s' he
        cases he

/-- Whatever the gate and whatever the attempts meet, each attempt that the gate admits is admitted
once, its callback runs once, and there are no more of them than the policy allows, which is at
least one. -/
theorem postStream_events (p : Post) (s : Gated σ) :
    ∃ results, results.length ≤ max 1 p.maxAttempts.toNat ∧
      (postStream g p s).2.events = s.events ++ attemptEvents 1 results := by
  have hrule : Triple (fun t => 1 ≤ 1 ∧ Made s.events (1-1) t) (postStream g p)
      (fun _ t => ∃ made ≤ max 1 p.maxAttempts.toNat, Made s.events made t)
      (fun _ t => ∃ made ≤ max 1 p.maxAttempts.toNat, Made s.events made t) := by
    refine postStream_rule (I := fun n t => 1 ≤ n ∧ Made s.events (n-1) t)
      (A := fun n callback t => 1 ≤ n ∧ Making s.events (n-1) callback.isSome t) rfl ?_ ?_ ?_ ?_
    · intro n hn t ht
      have hnumber : n = n-1+1 := by omega
      obtain ⟨hok,herror⟩ := admitAttempt_making g ⟨n,p.requestBytes⟩ s.events (n-1) hnumber t ht.2
      exact ⟨fun callback t' he => ⟨ht.1,hok callback t' he⟩,
        fun e t' he => ⟨n-1,by omega,herror e t' he⟩⟩
    · intro n hn callback reply t ht
      have hnumber : n-1+1 = n := by omega
      have hover := finishAttempt_made g callback (some reply) none s.events (n-1) t ht.2
      rw [hnumber] at hover
      exact ⟨fun u t' he => ⟨n,hn,hover.1 u t' he⟩,fun e t' he => ⟨n,hn,hover.2 e t' he⟩⟩
    · intro n hn callback reply failure t ht
      have hnumber : n-1+1 = n := by omega
      have hover := finishAttempt_made g callback reply (some failure) s.events (n-1) t ht.2
      rw [hnumber] at hover
      exact ⟨fun u t' he => ⟨by omega,hover.1 u t' he⟩,fun e t' he => ⟨n,hn,hover.2 e t' he⟩⟩
    · exact fun n hn e t ht => ⟨n-1,by omega,ht.2⟩
  have hstart : 1 ≤ 1 ∧ Made s.events (1-1) s := ⟨le_rfl,[],rfl,by simp [attemptEvents]⟩
  obtain ⟨made,hmade,results,hlength,hevents⟩ := hrule.state hstart
  exact ⟨results,by omega,hevents⟩

end

end Manvi.Transport
