import Manvi.Program.Triple

/-! Programs whose end is known exactly: from a state, one returns a value in a state if a condition
holds, and is left with an error otherwise. -/
namespace Manvi.Program

section
variable {σ ε α β : Type} {s s' s'' : σ} {x : Prog σ ε α} {f : α → Prog σ ε β} {C D : Prop} {a : α}
    {b : β}
  {R Q : ε → σ → Prop}

/-- From a state the program returns if the condition holds, and is left with R otherwise. -/
def Exact (s : σ) (x : Prog σ ε α) (C : Prop) (a : α) (s' : σ) (R : ε → σ → Prop) : Prop :=
  (C → x s = (.ok a,s')) ∧ (¬ C → ∃ e t, x s = (.error e,t) ∧ R e t)

namespace Exact

lemma pure : Exact s (Pure.pure a : Prog σ ε α) True a s R :=
  ⟨fun _ => rfl,fun h => absurd trivial h⟩

lemma read (f : σ → α) : Exact s (Prog.read f : Prog σ ε α) True (f s) s R :=
  ⟨fun _ => rfl,fun h => absurd trivial h⟩

lemma modify (f : σ → σ) : Exact s (Prog.modify f : Prog σ ε Unit) True () (f s) R :=
  ⟨fun _ => rfl,fun h => absurd trivial h⟩

lemma exit {e : ε} (h : R e s) : Exact s (Prog.exit e : Prog σ ε α) False a s' R :=
  ⟨fun h => h.elim,fun _ => ⟨e,s,rfl,h⟩⟩

lemma bind (hx : Exact s x C a s' R) (hf : C → Exact s' (f a) D b s'' R) :
    Exact s (x >>= f) (C ∧ D) b s'' R := by
  refine ⟨?_,?_⟩
  · rintro ⟨hc,hd⟩
    change Prog.bind x f s = _
    rw [Prog.bind,hx.1 hc]
    exact (hf hc).1 hd
  · intro hn
    change ∃ e t, Prog.bind x f s = (.error e,t) ∧ R e t
    by_cases hc : C
    · rw [Prog.bind,hx.1 hc]
      exact (hf hc).2 (fun hd => hn ⟨hc,hd⟩)
    · obtain ⟨e,t,hrun,hr⟩ := hx.2 hc
      rw [Prog.bind,hrun]
      exact ⟨e,t,rfl,hr⟩

lemma weaken (hx : Exact s x C a s' R) (hR : ¬ C → ∀ e t, R e t → Q e t) : Exact s x C a s' Q := by
  refine ⟨hx.1,?_⟩
  intro hn
  obtain ⟨e,t,hrun,hr⟩ := hx.2 hn
  exact ⟨e,t,hrun,hR hn e t hr⟩

/-- The condition may be put in other words. -/
lemma iff (hx : Exact s x C a s' R) (hC : D ↔ C) : Exact s x D a s' R :=
  ⟨fun hd => hx.1 (hC.mp hd),fun hn => hx.2 (fun hc => hn (hC.mpr hc))⟩

/-- A first part that always returns puts no condition. -/
lemma after (hx : Exact s x True a s' R) (hf : Exact s' (f a) D b s'' R) :
    Exact s (x >>= f) D b s'' R :=
  (hx.bind (fun _ => hf)).iff (by simp)

/-- A second part that always returns puts no condition. -/
lemma before (hx : Exact s x C a s' R) (hf : C → Exact s' (f a) True b s'' R) :
    Exact s (x >>= f) C b s'' R :=
  (hx.bind hf).iff (by simp)

lemma when {c : Prop} [Decidable c] {x : Prog σ ε Unit} (hx : c → Exact s x C () s R) :
    Exact s (Prog.when c x) (c → C) () s R := by
  unfold Prog.when
  by_cases hc : c
  · rw [if_pos hc]
    exact (hx hc).iff ⟨fun h => h hc,fun h _ => h⟩
  · rw [if_neg hc]
    exact pure.iff ⟨fun _ => trivial,fun _ h => absurd h hc⟩

/-- What a handler makes of an error is what the program is left with. -/
lemma rescue {h : ε → Prog σ ε α} (hx : Exact s x C a s' R)
    (hh : ¬ C → ∀ e t, R e t → ∃ e' t', h e t = (.error e',t') ∧ Q e' t') :
    Exact s (x.rescue h) C a s' Q := by
  refine ⟨?_,?_⟩
  · intro hc
    rw [Prog.rescue,hx.1 hc]
  · intro hn
    obtain ⟨e,t,hrun,hr⟩ := hx.2 hn
    rw [Prog.rescue,hrun]
    exact hh hn e t hr

end Exact

end

end Manvi.Program
