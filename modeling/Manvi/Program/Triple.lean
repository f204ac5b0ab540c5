import Mathlib

/-! Programs over a state that may be left early, and rules for what holds before and after them. -/
namespace Manvi.Program

/-- A program over a state. One that is left early keeps what it changed. -/
def Prog (σ ε α : Type) := σ → Except ε α × σ

section
variable {σ ε α β : Type}

namespace Prog

def pure (a : α) : Prog σ ε α := fun s => (.ok a,s)

def bind (x : Prog σ ε α) (f : α → Prog σ ε β) : Prog σ ε β := fun s =>
  match x s with
  | (.ok a,s) => f a s
  | (.error e,s) => (.error e,s)

instance : Monad (Prog σ ε) where
  pure := pure
  bind := bind

/-- Leave the program. -/
def exit (e : ε) : Prog σ ε α := fun s => (.error e,s)

def read (f : σ → α) : Prog σ ε α := fun s => (.ok (f s),s)

def modify (f : σ → σ) : Prog σ ε Unit := fun s => (.ok (),f s)

/-- Run a program under a condition. -/
def when (c : Prop) [Decidable c] (x : Prog σ ε Unit) : Prog σ ε Unit := if c then x else pure ()

/-- Go on from where a program was left. -/
def rescue (x : Prog σ ε α) (h : ε → Prog σ ε α) : Prog σ ε α := fun s =>
  match x s with
  | (.ok a,s) => (.ok a,s)
  | (.error e,s) => h e s

/-- Run a program for each member of a list. -/
def each (f : α → Prog σ ε Unit) : List α → Prog σ ε Unit
  | [] => pure ()
  | a :: as => f a >>= fun _ => each f as

end Prog

/-- From a state with P, the program returns with Q or is left with R. -/
def Triple (P : σ → Prop) (x : Prog σ ε α) (Q : α → σ → Prop) (R : ε → σ → Prop) : Prop :=
  ∀ s, P s → (∀ a s', x s = (.ok a,s') → Q a s') ∧ ∀ e s', x s = (.error e,s') → R e s'

namespace Triple
variable {P P' : σ → Prop} {Q Q' : α → σ → Prop} {R R' : ε → σ → Prop} {S : β → σ → Prop}

lemma pure {a : α} (h : ∀ s, P s → Q a s) : Triple P (Pure.pure a : Prog σ ε α) Q R := by
  intro s hs
  refine ⟨?_,?_⟩
  · intro b s' he
    cases he
    exact h s hs
  · intro e s' he
    cases he

lemma bind {x : Prog σ ε α} {f : α → Prog σ ε β} (hx : Triple P x Q R)
    (hf : ∀ a, Triple (Q a) (f a) S R) :
    Triple P (x >>= f) S R := by
  intro s hs
  obtain ⟨hok,herror⟩ := hx s hs
  change (∀ b s', Prog.bind x f s = (.ok b,s') → S b s') ∧ ∀ e s', Prog.bind x f s = (.error e,s') →
    R e s'
  unfold Prog.bind
  cases hrun : x s with
  | mk r s1 =>
    cases r with
    | ok a => exact hf a s1 (hok a s1 hrun)
    | error e =>
      refine ⟨?_,?_⟩
      · intro b s' he
        cases he
      · intro e' s' he
        cases he
        exact herror e s1 hrun

lemma exit {e : ε} (h : ∀ s, P s → R e s) : Triple P (Prog.exit e : Prog σ ε α) Q R := by
  intro s hs
  refine ⟨?_,?_⟩
  · intro b s' he
    cases he
  · intro e' s' he
    cases he
    exact h s hs

lemma read {f : σ → α} (h : ∀ s, P s → Q (f s) s) : Triple P (Prog.read f : Prog σ ε α) Q R := by
  intro s hs
  refine ⟨?_,?_⟩
  · intro b s' he
    cases he
    exact h s hs
  · intro e s' he
    cases he

lemma modify {f : σ → σ} {S : Unit → σ → Prop} (h : ∀ s, P s → S () (f s)) :
    Triple P (Prog.modify f : Prog σ ε Unit) S R := by
  intro s hs
  refine ⟨?_,?_⟩
  · intro b s' he
    cases he
    exact h s hs
  · intro e s' he
    cases he

lemma weaken {x : Prog σ ε α} (h : Triple P x Q R) (hP : ∀ s, P' s → P s)
    (hQ : ∀ a s, Q a s → Q' a s)
    (hR : ∀ e s, R e s → R' e s) : Triple P' x Q' R' := by
  intro s hs
  obtain ⟨hok,herror⟩ := h s (hP s hs)
  exact ⟨fun a s' he => hQ a s' (hok a s' he),fun e s' he => hR e s' (herror e s' he)⟩

lemma ite {c : Prop} [Decidable c] {x y : Prog σ ε α} (hx : c → Triple P x Q R)
    (hy : ¬ c → Triple P y Q R) :
    Triple P (if c then x else y) Q R := by
  by_cases hc : c
  · rw [if_pos hc]
    exact hx hc
  · rw [if_neg hc]
    exact hy hc

lemma when {c : Prop} [Decidable c] {x : Prog σ ε Unit} {I : σ → Prop}
    (hx : c → Triple I x (fun _ => I) R) :
    Triple I (Prog.when c x) (fun _ => I) R :=
  ite hx (fun _ => pure (fun _ hs => hs))

lemma rescue {x : Prog σ ε α} {h : ε → Prog σ ε α} (hx : Triple P x Q R)
    (hh : ∀ e, Triple (R e) (h e) Q R') :
    Triple P (x.rescue h) Q R' := by
  intro s hs
  obtain ⟨hok,herror⟩ := hx s hs
  unfold Prog.rescue
  cases hrun : x s with
  | mk r s1 =>
    cases r with
    | ok a =>
      refine ⟨?_,?_⟩
      · intro b s' he
        cases he
        exact hok a s1 hrun
      · intro e s' he
        cases he
    | error e => exact hh e s1 (herror e s1 hrun)

/-- A loop over a list keeps what each round keeps. -/
lemma each {f : α → Prog σ ε Unit} {I : σ → Prop} (h : ∀ a, Triple I (f a) (fun _ => I) R)
    (as : List α) :
    Triple I (Prog.each f as) (fun _ => I) R := by
  induction as with
  | nil => exact pure (fun _ hs => hs)
  | cons a as ih => exact bind (h a) (fun _ => ih)

/-- What holds however a program ends, holds of the state it ends in. -/
lemma state {x : Prog σ ε α} {I : σ → Prop} (h : Triple P x (fun _ => I) (fun _ => I)) {s : σ}
    (hs : P s) : I (x s).2 := by
  obtain ⟨hok,herror⟩ := h s hs
  cases hrun : x s with
  | mk r s' =>
    cases r with
    | ok a => exact hok a s' hrun
    | error e => exact herror e s' hrun

end Triple

end

end Manvi.Program
