import Manvi.Credentials.Scrubber
import Manvi.Encoding.Veiled

/-! What a call of Clean returns: no watched value, or only that the scrubber is not armed. -/
namespace Manvi.Credentials
open Manvi.Encoding

/-- Replace some words in a text, one after another. -/
def scrub (words : List Bytes) (text : Bytes) : Bytes :=
  words.foldl (fun s v => replaceAll id v redacted s) text

section progress
variable {w w₀ : World} {i : ℕ} {t : Task} {text : Bytes}

/-- Where a call of Clean is that took what was watched when it began. -/
inductive Progress (w₀ : World) (text : Bytes) (w : World) : Task → Prop
  | cleaning (done left : List ℕ) (armed : w₀.unarmed = none) (split : w₀.values = done ++ left)
      (live : ∀ b ∈ done, w₀.live b) :
      Progress w₀ text w (.cleaning left (scrub (done.map (fun b => (w₀.buffer b).bytes)) text))
  | cleaned (armed : w₀.unarmed = none) (live : ∀ b ∈ w₀.values, w₀.live b) :
      Progress w₀ text w (.cleaned (scrub w₀.words text))
  | withheld (reason : Bytes) (unarmed : w.unarmed = some reason) :
      Progress w₀ text w (.withheld reason)

lemma Progress.grows {w' : World} (h : Progress w₀ text w t) (hg : Grows w w') :
    Progress w₀ text w' t := by
  cases h with
  | cleaning done left armed split live => exact .cleaning done left armed split live
  | cleaned armed live => exact .cleaned armed live
  | withheld reason unarmed => exact .withheld reason (hg.unarmed reason unarmed)

/-- One section takes the next value, or finds it wiped. -/
lemma Progress.advance (h : Progress w₀ text w t) (hs : Sound w₀) (hg : Grows w₀ w) (env : Env) :
    Progress w₀ text (w.advance env t).1 (w.advance env t).2 := by
  cases h with
  | cleaned armed live => exact .cleaned armed live
  | withheld reason unarmed => exact .withheld reason unarmed
  | cleaning done left armed split live =>
    cases left with
    | nil =>
      rw [List.append_nil] at split
      have hdone : done.map (fun b => (w₀.buffer b).bytes) = w₀.words := by rw [World.words,split]
      rw [hdone]
      exact .cleaned armed (split ▸ live)
    | cons b left =>
      have hb : b ∈ w₀.values := by
        rw [split]
        simp
      simp only [World.advance]
      by_cases hnil : (w.buffer b).string = []
      · rw [if_pos hnil]
        exact .withheld _ rfl
      · rw [if_neg hnil]
        have hlive := live_of_string hnil
        have hthen := hg.live b (hs.there b hb) hlive
        rw [string_of_live hlive,hg.bytes b (hs.there b hb)]
        have hnext : Progress w₀ text w _ :=
          .cleaning (done ++ [b]) left armed (by rw [split]; simp) (by
          intro c hc
          obtain hc | rfl := List.mem_append.mp hc |>.imp_right List.mem_singleton.mp
          · exact live c hc
          · exact hthen)
        rw [List.map_append,List.map_singleton,scrub,List.foldl_append] at hnext
        exact hnext

lemma task_step (h : w.tasks[i]? = some t) (a : Act) : (step w a).tasks[i]? = some t
    ∨ ∃ env, a = .advance i env ∧ (step w a).tasks[i]? = some (w.advance env t).2 := by
  have hlt := (List.getElem?_eq_some_iff.mp h).1
  cases a with
  | call c => exact .inl ((List.getElem?_append_left hlt).trans h)
  | wipe bufs => exact .inl h
  | advance j env =>
    simp only [step]
    by_cases hij : j = i
    · subst hij
      rw [h]
      refine .inr ⟨env,rfl,?_⟩
      simp only [tasks_advance]
      exact List.getElem?_set_self hlt
    · left
      cases w.tasks[j]? with
      | none => exact h
      | some t' =>
        simp only [tasks_advance]
        rw [List.getElem?_set_ne hij,h]

/-- A world in which a call of Clean is under way. -/
structure Under (w₀ : World) (text : Bytes) (i : ℕ) (w : World) : Prop where
  grows : Grows w₀ w
  task : ∃ t, w.tasks[i]? = some t ∧ Progress w₀ text w t

lemma Under.step (h : Under w₀ text i w) (hs : Sound w₀) (a : Act) :
    Under w₀ text i (step w a) := by
  obtain ⟨t,ht,hprogress⟩ := h.task
  refine ⟨h.grows.trans (grows_step w a),?_⟩
  obtain hsame | ⟨env,rfl,hnext⟩ := task_step ht a
  · exact ⟨t,hsame,hprogress.grows (grows_step w a)⟩
  · have hadvanced := hprogress.advance hs h.grows env
    refine ⟨_,hnext,hadvanced.grows ?_⟩
    simp only [Credentials.step,ht]
    exact ⟨le_rfl,fun _ _ => rfl,fun _ _ h => h,fun _ h => h,fun _ h => h⟩

lemma Under.foldl (h : Under w₀ text i w) (hs : Sound w₀) (acts : List Act) :
    Under w₀ text i (acts.foldl Credentials.step w) := by
  induction acts generalizing w with
  | nil => exact h
  | cons a acts ih => exact ih (h.step hs a)

/-- A call of Clean begins: it returns the notice, or takes what is watched. -/
lemma under_begin (ht : w.tasks[i]? = some (.clean text)) (env : Env) :
    Under w text i (step w (.advance i env)) := by
  refine ⟨grows_step w _,?_⟩
  have hlt := (List.getElem?_eq_some_iff.mp ht).1
  simp only [step,ht,World.advance]
  cases hunarmed : w.unarmed with
  | some reason => exact ⟨.withheld reason,List.getElem?_set_self hlt,.withheld reason hunarmed⟩
  | none =>
    exact ⟨.cleaning w.values text,List.getElem?_set_self hlt,
      .cleaning [] w.values hunarmed rfl (fun _ h => (by cases h))⟩

end progress

section runs
variable {acts : List Act} {k i : ℕ} {text out : Bytes}

/-- The first section of a call of Clean. -/
def Begins (acts : List Act) (k i : ℕ) (text : Bytes) : Prop :=
  (∃ env, acts[k]? = some (.advance i env)) ∧ (during acts k).tasks[i]? = some (.clean text)

/-- A call of Clean has returned a text. -/
def Returns (acts : List Act) (i : ℕ) (out : Bytes) : Prop :=
  (after acts).tasks[i]? = some (.cleaned out) ∨ ∃ reason,
  (after acts).tasks[i]? = some (.withheld reason) ∧ out = withheld reason

lemma after_split (acts : List Act) (k : ℕ) :
    after acts = (acts.drop k).foldl step (during acts k) := by
  rw [during,course,after,← List.foldl_append,List.take_append_drop]

lemma during_succ {a : Act} (h : acts[k]? = some a) : during acts (k+1) = step (during acts k) a :=
    course_succ h

lemma sound_during (acts : List Act) (k : ℕ) : Sound (during acts k) := sound_after _

lemma under_after (h : Begins acts k i text) : Under (during acts k) text i (after acts) := by
  obtain ⟨⟨env,ha⟩,ht⟩ := h
  rw [after_split acts (k+1),during_succ ha]
  exact (under_begin ht env).foldl (sound_during acts k) _

/-- What a call of Clean that began has returned: all that was watched was there and is replaced, or
the reason of the notice is that of the scrubber. -/
lemma returns_cases (h : Begins acts k i text) (hr : Returns acts i out) :
    ((during acts k).unarmed = none ∧ (∀ b ∈ (during acts k).values, (during acts k).live b)
      ∧ out = scrub (during acts k).words text)
    ∨ ∃ reason, (after acts).unarmed = some reason ∧ out = withheld reason := by
  obtain ⟨t,ht,hprogress⟩ := (under_after h).task
  obtain hcleaned | ⟨reason,hwithheld,rfl⟩ := hr
  · obtain rfl := Option.some.inj (ht.symm.trans hcleaned)
    cases hprogress with
    | cleaned armed live => exact .inl ⟨armed,live,rfl⟩
  · obtain rfl := Option.some.inj (ht.symm.trans hwithheld)
    cases hprogress with
    | withheld _ unarmed => exact .inr ⟨reason,unarmed,rfl⟩

end runs

/-- A value without brackets that is no part of what stands for one. -/
def Plain (v : Bytes) : Prop := 91 ∉ v ∧ 93 ∉ v ∧ ¬ v <:+: redacted

instance (v : Bytes) : Decidable (Plain v) := inferInstanceAs (Decidable (_ ∧ _ ∧ _))

section words
variable {w : World} {words : List Bytes} {text v : Bytes}

lemma redacted_eq : redacted = 91 :: ascii "redacted" ++ [93] := by decide

lemma Plain.readable (h : Plain v) (hne : v ≠ []) : Readable 91 93 (ascii "redacted") v := by
  refine ⟨hne,h.1,h.2.1,fun hin => h.2.2 (hin.trans ?_)⟩
  rw [redacted_eq]
  exact ⟨[91],[93],rfl⟩

/-- The text is veiled by what the replacements hide. -/
lemma veiled_scrub (hwords : ∀ v ∈ words, Plain v ∧ v ≠ []) (text : Bytes) :
    Veiled redacted text (hiddenAll text (fun _ => False) words) 0 (scrub words text) := by
  have h := veiled_drop redacted text 0
  rw [List.drop_zero,redacted_eq] at h
  unfold scrub
  rw [redacted_eq]
  exact h.foldl_replaceAll (fun v hv => (hwords v hv).1.readable (hwords v hv).2)

/-- None of the words is left. -/
theorem not_infix_scrub (hwords : ∀ v ∈ words, Plain v ∧ v ≠ []) (text : Bytes) (hv : v ∈ words) :
    ¬ v <:+: scrub words text := by
  intro hin
  have h := veiled_scrub hwords text
  rw [redacted_eq] at h
  obtain ⟨k,hk⟩ := h.stands_of_infix ((hwords v hv).1.readable (hwords v hv).2) hin
  exact not_standsFree_hiddenAll hv (hwords v hv).2 k hk

lemma replaceFrom_of_not_infix {new s : Bytes} (fuel : ℕ) (h : ¬ v <:+: s) :
    replaceFrom id v new fuel s = s := by
  induction fuel generalizing s with
  | zero => rfl
  | succ fuel ih =>
    cases s with
    | nil => rfl
    | cons a s =>
      rw [replaceFrom,List.map_id,if_neg (fun hpre => h hpre.isInfix),ih]
      exact fun hin => h (hin.trans (List.suffix_cons a s).isInfix)

/-- A text with none of the words stays as it is. -/
lemma scrub_of_free {s : Bytes} (h : ∀ v ∈ words, ¬ v <:+: s) : scrub words s = s := by
  induction words with
  | nil => rfl
  | cons v words ih =>
    have hfirst : replaceAll id v redacted s = s :=
      replaceFrom_of_not_infix _ (h v List.mem_cons_self)
    have hrest := ih (fun x hx => h x (List.mem_cons_of_mem v hx))
    unfold scrub at hrest ⊢
    rw [List.foldl_cons,hfirst]
    exact hrest

theorem scrub_scrub (hwords : ∀ v ∈ words, Plain v ∧ v ≠ []) (text : Bytes) :
    scrub words (scrub words text) = scrub words text :=
  scrub_of_free (fun _ hv => not_infix_scrub hwords text hv)

lemma ne_nil_of_long (h : minScrubLen ≤ v.length) : v ≠ [] := by
  rintro rfl
  exact absurd h (by decide)

lemma Sound.ne_nil (h : Sound w) (hv : v ∈ w.words) : v ≠ [] := by
  obtain ⟨b,hb,rfl⟩ := List.mem_map.mp hv
  exact ne_nil_of_long (h.long b hb)

lemma Sound.nodup_words (h : Sound w) (hlive : ∀ b ∈ w.values, w.live b) : w.words.Nodup := by
  refine (List.nodup_map_iff_inj_on h.once).mpr ?_
  intro a ha b hb hsame
  exact h.apart a ha b hb (hlive a ha) (hlive b hb) hsame

lemma Sound.longest_first (h : Sound w) (hlive : ∀ b ∈ w.values, w.live b) :
    w.words.Pairwise (fun v w => w.length ≤ v.length) := by
  refine List.pairwise_map.mpr (h.order.imp_of_mem ?_)
  intro a b ha hb hab
  exact hab (hlive a ha) (hlive b hb)

lemma Veiled.congr {marker s : Bytes} {hidden hidden' : ℕ → Prop} {c : ℕ}
    (h : Veiled marker text hidden c s)
    (hsame : ∀ p, hidden p ↔ hidden' p) : Veiled marker text hidden' c s := by
  obtain rfl : hidden = hidden' := funext (fun p => propext (hsame p))
  exact h

/-- With the copies of values nested and taken whole, just their bytes are replaced. -/
lemma veiled_copies (h : Sound w) (hlive : ∀ b ∈ w.values, w.live b)
    (hplain : ∀ v ∈ w.words, Plain v)
    (hnested : Nested w.words text) (hcovers : Covers w.words text) :
    Veiled redacted text (fun p => ∃ v ∈ w.words, InCopy text v p) 0 (scrub w.words text) := by
  have hhides := hides_hiddenAll hnested hcovers (h.nodup_words hlive) (h.longest_first hlive)
  refine Veiled.congr (veiled_scrub (fun v hv => ⟨hplain v hv,h.ne_nil hv⟩) text) (fun p =>
    ⟨hhides.sound p,?_⟩)
  rintro ⟨v,hv,hcopy⟩
  exact hhides.whole v hv p hcopy

end words
section again
variable {w w' : World} {i n : ℕ} {text out : Bytes} {env : Env}

/-- What a call of Clean comes to that nothing comes between. -/
def World.cleanFrom (w : World) : List ℕ → Bytes → Task
  | [],text => .cleaned text
  | b :: left,text =>
    if (w.buffer b).string = [] then .withheld errScrubberWiped
    else w.cleanFrom left (replaceAll id (w.buffer b).string redacted text)

def World.cleanResult (w : World) (text : Bytes) : Task := match w.unarmed with
  | some reason => .withheld reason
  | none => w.cleanFrom w.values text

/-- A call of Clean with all its sections. -/
def callClean (w : World) (text : Bytes) (env : Env) : List Act :=
  .call (.clean text) :: List.replicate (w.values.length+2) (.advance w.tasks.length env)

/-- Two worlds with the same buffers, of which the same are watched. -/
structure Alike (w w' : World) : Prop where
  bufs : w'.bufs = w.bufs
  values : w'.values = w.values
  tasks : w'.tasks.length = w.tasks.length

/-- A call that has come to some end leaves the scrubber with the reason for it. -/
structure Ends (w : World) (i : ℕ) (t : Task) (w' : World) : Prop where
  alike : Alike w w'
  task : w'.tasks[i]? = some t
  armed : ∀ out, t = .cleaned out → w'.unarmed = none
  unarmed : ∀ reason, t = .withheld reason → w'.unarmed = some reason

lemma step_advance {t : Task} (ht : w.tasks[i]? = some t) :
    step w (.advance i env) = { (w.advance env t).1 with
      tasks := w.tasks.set i (w.advance env t).2 } := by
  simp only [step,ht,tasks_advance]

/-- A call that has returned goes no further. -/
lemma foldl_returned {t : Task} (ht : w.tasks[i]? = some t) (hstays : w.advance env t = (w,t)) :
    (List.replicate n (.advance i env)).foldl step w = w := by
  induction n with
  | zero => rfl
  | succ n ih =>
    have hsame : step w (.advance i env) = w := by
      rw [step_advance ht,hstays]
      have hset : w.tasks.set i t = w.tasks := by
        obtain ⟨hlt,hget⟩ := List.getElem?_eq_some_iff.mp ht
        rw [← hget]
        exact List.set_getElem_self hlt
      simp only [hset]
    rw [List.replicate_succ,List.foldl_cons,hsame]
    exact ih

lemma cleanFrom_congr (h : w'.bufs = w.bufs) (left : List ℕ) (text : Bytes) :
    w'.cleanFrom left text = w.cleanFrom left text := by
  have hbuffer : ∀ b, w'.buffer b = w.buffer b := fun b => by rw [World.buffer,World.buffer,h]
  induction left generalizing text with
  | nil => rfl
  | cons b left ih => rw [World.cleanFrom,World.cleanFrom,hbuffer,ih]

/-- A call that takes the values one after another comes to its end. -/
lemma ends_cleaning (env : Env) {left : List ℕ} (ht : w.tasks[i]? = some (.cleaning left text))
    (harmed : w.unarmed = none) (hn : left.length < n) :
    Ends w i (w.cleanFrom left text) ((List.replicate n (.advance i env)).foldl step w) := by
  have hlt := (List.getElem?_eq_some_iff.mp ht).1
  induction n generalizing w left text with
  | zero => omega
  | succ n ih =>
    rw [List.replicate_succ,List.foldl_cons,step_advance ht]
    cases left with
    | nil =>
      have hreturned : ({ w with tasks := w.tasks.set i (.cleaned text) } : World).tasks[i]? = some
        (.cleaned text) :=
        List.getElem?_set_self hlt
      simp only [World.advance]
      rw [foldl_returned hreturned rfl]
      refine ⟨⟨rfl,rfl,List.length_set⟩,hreturned,fun _ _ => harmed,?_⟩
      rintro reason ⟨⟩
    | cons b left =>
      simp only [World.advance,World.cleanFrom]
      by_cases hnil : (w.buffer b).string = []
      · rw [if_pos hnil,if_pos hnil,harmed]
        have hreturned : ({ w.markUnarmed errScrubberWiped with
          tasks := w.tasks.set i (.withheld errScrubberWiped) } : World).tasks[i]?
            = some (.withheld errScrubberWiped) := List.getElem?_set_self hlt
        rw [Option.getD_none,foldl_returned hreturned rfl]
        refine ⟨⟨rfl,rfl,List.length_set⟩,hreturned,?_,?_⟩
        · rintro out ⟨⟩
        · rintro reason ⟨⟩
          simp [World.markUnarmed,harmed]
      · rw [if_neg hnil,if_neg hnil]
        simp only []
        have hnext := ih (w := { w with
          tasks := w.tasks.set i (.cleaning left
            (replaceAll id (w.buffer b).string redacted text)) })
          (List.getElem?_set_self hlt) harmed (by rw [List.length_cons] at hn; omega)
          (by simpa using hlt)
        have halike : Alike w { w with
          tasks := w.tasks.set i (.cleaning left
            (replaceAll id (w.buffer b).string redacted text)) } :=
          ⟨rfl,rfl,List.length_set⟩
        rw [cleanFrom_congr halike.bufs] at hnext
        exact ⟨⟨hnext.alike.bufs,hnext.alike.values,hnext.alike.tasks.trans halike.tasks⟩,
          hnext.task,hnext.armed,hnext.unarmed⟩

/-- A call of Clean that nothing comes between. -/
lemma ends_callClean (w : World) (text : Bytes) (env : Env) :
    Ends { w with tasks := w.tasks ++ [.clean text] } w.tasks.length (w.cleanResult text)
    ((callClean w text env).foldl step w) := by
  rw [callClean,List.foldl_cons,List.replicate_succ,List.foldl_cons]
  have ht : (step w (.call (.clean text))).tasks[w.tasks.length]? = some
    (.clean text) := by simp [step,Call.task]
  have hlt := (List.getElem?_eq_some_iff.mp ht).1
  rw [step_advance ht,World.cleanResult]
  have hunarmed : (step w (.call (.clean text))).unarmed = w.unarmed := rfl
  simp only [World.advance,hunarmed]
  cases harmed : w.unarmed with
  | some reason =>
    simp only []
    have hreturned := List.getElem?_set_self (a := Task.withheld reason) hlt
    rw [foldl_returned (t := .withheld reason) hreturned rfl]
    refine ⟨⟨rfl,rfl,List.length_set⟩,hreturned,?_,?_⟩
    · rintro out ⟨⟩
    · rintro _ ⟨⟩
      exact harmed
  | none =>
    simp only []
    have hbegun := List.getElem?_set_self (a := Task.cleaning w.values text) hlt
    have hends := ends_cleaning (n := w.values.length+1) env
      (w := { step w (.call (.clean text)) with
        tasks := (step w (.call (.clean text))).tasks.set w.tasks.length
          (.cleaning w.values text) })
      hbegun harmed (Nat.lt_succ_self _)
    have hsame : ∀ u : World, u.bufs = w.bufs →
      u.cleanFrom w.values text = w.cleanFrom w.values text :=
      fun u hu => cleanFrom_congr hu w.values text
    rw [hsame] at hends
    · exact ⟨⟨hends.alike.bufs,hends.alike.values,hends.alike.tasks.trans List.length_set⟩,
        hends.task,hends.armed,hends.unarmed⟩
    · rfl

lemma cleanFrom_cases (w : World) (left : List ℕ) (text : Bytes) :
    w.cleanFrom left text = .withheld errScrubberWiped
    ∨ ((∀ b ∈ left, w.live b) ∧
      w.cleanFrom left text = .cleaned (scrub (left.map (fun b => (w.buffer b).bytes)) text)) := by
  induction left generalizing text with
  | nil => exact .inr ⟨fun _ h => (by cases h),rfl⟩
  | cons b left ih =>
    rw [World.cleanFrom]
    by_cases hnil : (w.buffer b).string = []
    · rw [if_pos hnil]
      exact .inl rfl
    · rw [if_neg hnil]
      have hlive := live_of_string hnil
      rw [string_of_live hlive]
      refine (ih (replaceAll id (w.buffer b).bytes redacted text)).imp_right (fun h => ⟨?_,h.2⟩)
      intro c hc
      obtain rfl | hc := List.mem_cons.mp hc
      · exact hlive
      · exact h.1 c hc

/-- Where all that is watched is there, it is replaced. -/
lemma cleanFrom_of_live (left : List ℕ) (hs : ∀ b ∈ left, w.live b ∧ (w.buffer b).bytes ≠ [])
    (text : Bytes) :
    w.cleanFrom left text = .cleaned (scrub (left.map (fun b => (w.buffer b).bytes)) text) := by
  induction left generalizing text with
  | nil => rfl
  | cons b left ih =>
    obtain ⟨hlive,hne⟩ := hs b List.mem_cons_self
    rw [World.cleanFrom,string_of_live hlive,if_neg hne]
    exact ih (fun c hc => hs c (List.mem_cons_of_mem b hc)) _

/-- A call on what a call has returned, with nothing between them, returns it again. -/
lemma clean_again (w : World) (hs : Sound w) (hplain : ∀ v ∈ w.words, Plain v) (text : Bytes)
    (env : Env) :
    ∃ out, ∃ t : Task, (t = .cleaned out ∨ ∃ reason, t = .withheld reason ∧ out = withheld reason)
      ∧ ((callClean w text env).foldl step w).tasks[w.tasks.length]? = some t
      ∧ ((callClean ((callClean w text env).foldl step w) out env).foldl step
        ((callClean w text env).foldl step w)).tasks[w.tasks.length+1]?
        = some t := by
  have hfirst := ends_callClean w text env
  generalize (callClean w text env).foldl step w = w₁ at hfirst ⊢
  have htasks : w₁.tasks.length = w.tasks.length+1 := by rw [hfirst.alike.tasks]; simp
  have hsecond := fun out => (ends_callClean w₁ out env).task
  rw [htasks] at hsecond
  cases hunarmed : w.unarmed with
  | some reason =>
    have hresult : w.cleanResult text = .withheld reason := by rw [World.cleanResult,hunarmed]
    refine ⟨withheld reason,.withheld reason,.inr ⟨reason,rfl,rfl⟩,
      by rw [← hresult]; exact hfirst.task,?_⟩
    rw [hsecond,World.cleanResult,hfirst.unarmed reason hresult]
  | none =>
    have hresult : w.cleanResult text = w.cleanFrom w.values text := by rw [World.cleanResult,
      hunarmed]
    obtain hwiped | ⟨hlive,hcleaned⟩ := cleanFrom_cases w w.values text
    · rw [hwiped] at hresult
      refine ⟨withheld errScrubberWiped,.withheld errScrubberWiped,.inr ⟨_,rfl,rfl⟩,
        by rw [← hresult]; exact hfirst.task,?_⟩
      rw [hsecond,World.cleanResult,hfirst.unarmed _ hresult]
    · rw [hcleaned] at hresult
      refine ⟨_,_,.inl rfl,by rw [← hresult]; exact hfirst.task,?_⟩
      rw [hsecond,World.cleanResult,hfirst.armed _ hresult]
      have hwords : ∀ v ∈ w.words, Plain v ∧ v ≠ [] := fun v hv => ⟨hplain v hv,hs.ne_nil hv⟩
      have hagain := cleanFrom_of_live w.values (fun b hb => ⟨hlive b hb,
        ne_nil_of_long (hs.long b hb)⟩) (scrub w.words text)
      have hbufs : w₁.bufs = w.bufs := hfirst.alike.bufs
      have hvalues : w₁.values = w.values := hfirst.alike.values
      have hscrub : scrub (w.values.map (fun b => (w.buffer b).bytes)) (scrub w.words text) =
        scrub w.words text :=
        scrub_scrub hwords text
      rw [hscrub] at hagain
      simp only [hvalues,cleanFrom_congr hbufs]
      exact congrArg some hagain

end again

/-- What a run of a scrubber should come to. No text that is returned has a value that was to be
watched before the call began; a call on what was returned returns it again; where copies of
different values do not partly overlap just their bytes are replaced; where the scrubber is not
armed or a buffer was wiped only the notice is returned; and a value is held or the scrubber is not
armed. -/
structure CleansRight (acts : List Act) : Prop where
  free : ∀ k i text out, Begins acts k i text → Returns acts i out → ∀ v, (during acts k).Asked v →
    ¬ v <:+: out
  again : ∀ text env, ∃ out,
    Returns (acts ++ callClean (after acts) text env) (after acts).tasks.length out
    ∧ Returns (acts ++ callClean (after acts) text env ++
      callClean (after (acts ++ callClean (after acts) text env)) out env)
      ((after acts).tasks.length+1) out
  exact : ∀ k i text out, Begins acts k i text → (after acts).tasks[i]? = some (.cleaned out) →
    Nested (during acts k).words text →
    Veiled redacted text (fun p => ∃ v ∈ (during acts k).words, InCopy text v p) 0 out
  notice : ∀ k i text out, Begins acts k i text → Returns acts i out →
    ((during acts k).unarmed.isSome = true ∨ ∃ b ∈ (during acts k).values,
      ¬ (during acts k).live b) →
    ∃ reason, (after acts).unarmed = some reason ∧ out = withheld reason
  held : ∀ k v, (during acts k).Asked v → v ∈ (during acts k).words ∨
    (during acts k).unarmed.isSome = true

section right
variable {acts : List Act}

lemma grows_during (acts : List Act) (k : ℕ) : Grows (during acts k) (after acts) := by
  rw [after_split acts k]
  exact grows_foldl _ _

lemma words_during {k : ℕ} {v : Bytes} (h : v ∈ (during acts k).words) :
    v ∈ (after acts).words := by
  obtain ⟨b,hb,rfl⟩ := List.mem_map.mp h
  have hg := grows_during acts k
  exact List.mem_map.mpr ⟨b,hg.values b hb,hg.bytes b ((sound_during acts k).there b hb)⟩

lemma returns_again (acts : List Act) (hplain : ∀ v ∈ (after acts).words, Plain v) (text : Bytes)
    (env : Env) :
    ∃ out, Returns (acts ++ callClean (after acts) text env) (after acts).tasks.length out
      ∧ Returns (acts ++ callClean (after acts) text env ++
        callClean (after (acts ++ callClean (after acts) text env)) out env)
        ((after acts).tasks.length+1) out := by
  obtain ⟨out,t,hout,hfirst,hsecond⟩ := clean_again (after acts) (sound_after acts) hplain text env
  have hafter : ∀ more : List Act, after (acts ++ more) = more.foldl step (after acts) :=
    fun more => by
    rw [after,List.foldl_append]
    rfl
  have hreturned : ∀ {acts' : List Act} {i : ℕ}, (after acts').tasks[i]? = some t →
    Returns acts' i out := by
    intro acts' i ht
    obtain rfl | ⟨reason,rfl,rfl⟩ := hout
    · exact .inl ht
    · exact .inr ⟨reason,ht,rfl⟩
  refine ⟨out,hreturned (by rw [hafter]; exact hfirst),hreturned ?_⟩
  rw [List.append_assoc,hafter,List.foldl_append,hafter]
  exact hsecond

/-- Where values are plain and in no notice, and copies are taken whole, a run comes to what it
should. -/
theorem cleansRight_of_covers (acts : List Act) (hplain : ∀ v ∈ (after acts).words, Plain v)
    (hnotice : ∀ k reason v, (after acts).unarmed = some reason → (during acts k).Asked v →
      ¬ v <:+: withheld reason)
    (hcovers : ∀ k i text, Begins acts k i text → Covers (during acts k).words text) :
    CleansRight acts := by
  have hplain' : ∀ k, ∀ v ∈ (during acts k).words, Plain v :=
    fun k v hv => hplain v (words_during hv)
  refine ⟨?_,returns_again acts hplain,?_,?_,fun k v hv => (sound_during acts k).held v hv⟩
  · intro k i text out hb hr v hv
    obtain ⟨harmed,_,rfl⟩ | ⟨reason,hreason,rfl⟩ := returns_cases hb hr
    · obtain hmem | hunarmed := (sound_during acts k).held v hv
      · exact not_infix_scrub (fun x hx => ⟨hplain' k x hx,
          (sound_during acts k).ne_nil hx⟩) text hmem
      · rw [harmed] at hunarmed
        cases hunarmed
    · exact hnotice k reason v hreason hv
  · intro k i text out hb hcleaned hnested
    obtain ⟨t,ht,hprogress⟩ := (under_after hb).task
    obtain rfl := Option.some.inj (ht.symm.trans hcleaned)
    cases hprogress with
    | cleaned armed live =>
      exact veiled_copies (sound_during acts k) live (hplain' k) hnested (hcovers k i text hb)
  · intro k i text out hb hr hlost
    obtain ⟨harmed,hlive,_⟩ | hwithheld := returns_cases hb hr
    · obtain hunarmed | ⟨b,hmem,hdead⟩ := hlost
      · rw [harmed] at hunarmed
        cases hunarmed
      · exact (hdead (hlive b hmem)).elim
    · exact hwithheld

/-- A value is watched, and then a text is cleaned. -/
def watchThenClean (value text : Bytes) : List Act :=
  let calm : Env := ⟨none,none,none,[0]⟩
  [.call (.watch ⟨value,ascii "XAI_API_KEY",none⟩),.advance 0 calm,.call (.clean text),
    .advance 1 calm,.advance 1 calm,.advance 1 calm]

lemma covers_key : Covers [ascii "xai-0123456789"] (ascii "key=xai-0123456789") := by
  intro v hv p hcopy
  obtain rfl := List.mem_singleton.mp hv
  obtain ⟨i,hi,hle,hlt⟩ := hcopy
  have hlen : i ≤ 4 := by
    have := hi.length_le
    rw [List.length_drop] at this
    have h14 : (ascii "xai-0123456789").length = 14 := by decide
    have h18 : (ascii "key=xai-0123456789").length = 18 := by decide
    omega
  have honly : ∀ k < 4, ¬ ascii "xai-0123456789" <+:
    (ascii "key=xai-0123456789").drop k := by decide
  obtain rfl : i = 4 := by
    by_contra hne
    exact honly i (by omega) hi
  refine .inr ⟨4,takes_iff.mpr ⟨hi,fun k hk _ ht => ?_⟩,hle,hlt⟩
  exact honly k hk (takes_iff.mp ht).1

theorem cleansRight_key :
    CleansRight (watchThenClean (ascii "xai-0123456789") (ascii "key=xai-0123456789")) := by
  refine cleansRight_of_covers (watchThenClean (ascii "xai-0123456789")
    (ascii "key=xai-0123456789")) (by decide) ?_ ?_
  · intro k reason v hreason
    have harmed : (after (watchThenClean (ascii "xai-0123456789")
      (ascii "key=xai-0123456789"))).unarmed = none := by decide
    rw [harmed] at hreason
    cases hreason
  · rintro k i text ⟨⟨env,hact⟩,htask⟩
    have hk : k < 6 := (List.getElem?_eq_some_iff.mp hact).1
    interval_cases k
    · cases hact
    · cases hact
      have hwatch : (during (watchThenClean (ascii "xai-0123456789")
        (ascii "key=xai-0123456789")) 1).tasks[0]?
          = some (.watch ⟨ascii "xai-0123456789",ascii "XAI_API_KEY",none⟩) := by decide
      rw [hwatch] at htask
      cases htask
    · cases hact
    · cases hact
      have hclean : (during (watchThenClean (ascii "xai-0123456789")
        (ascii "key=xai-0123456789")) 3).tasks[1]?
          = some (.clean (ascii "key=xai-0123456789")) := by decide
      have hwords : (during (watchThenClean (ascii "xai-0123456789")
        (ascii "key=xai-0123456789")) 3).words
          = [ascii "xai-0123456789"] := by decide
      obtain rfl : ascii "key=xai-0123456789" = text :=
        Task.clean.inj (Option.some.inj (hclean.symm.trans htask))
      rw [hwords]
      exact covers_key
    · cases hact
      have hcleaning : (during (watchThenClean (ascii "xai-0123456789")
        (ascii "key=xai-0123456789")) 4).tasks[1]?
          = some (.cleaning [0] (ascii "key=xai-0123456789")) := by decide
      rw [hcleaning] at htask
      cases htask
    · cases hact
      have hcleaning : (during (watchThenClean (ascii "xai-0123456789")
        (ascii "key=xai-0123456789")) 5).tasks[1]?
          = some (.cleaning [] (ascii "key=[redacted]")) := by decide
      rw [hcleaning] at htask
      cases htask

/-- Of two copies that overlap, the end of the second is not behind a marker. -/
lemma not_veiled_overlap : ¬ Veiled redacted (ascii "ababababab")
    (fun p => ∃ v ∈ [ascii "abababab"],
      InCopy (ascii "ababababab") v p) 0 (ascii "[redacted]ab") := by
  intro h
  generalize hout : ascii "[redacted]ab" = out at h
  cases h with
  | done => exact absurd hout (by decide)
  | keep h0 _ _ =>
    have ha : (ascii "[redacted]ab")[0]? = (ascii "ababababab")[0]? := by rw [hout,h0]; rfl
    exact absurd ha (by decide)
  | @block _ c s _ _ rest =>
    obtain rfl : ascii "ab" = s :=
      List.append_cancel_left (show redacted ++ ascii "ab" = redacted ++ s from hout)
    rw [redacted_eq] at rest
    obtain ⟨⟨hstands,hfree⟩,hend⟩ :=
      rest.stands (show ∀ a ∈ ascii "ab", a ≠ 91 by set_option maxRecDepth 20000 in decide)
      (List.prefix_refl _)
    have hten : (ascii "ababababab").length = 10 := by decide
    have htwo : (ascii "ab").length = 2 := by decide
    rw [List.drop_length] at hend
    have hlong := hend.le_of_nil (by simp)
    have hshort := hstands.length_le
    rw [List.length_drop] at hshort
    obtain rfl : c = 8 := by omega
    exact hfree 8 le_rfl (by decide) ⟨_,List.mem_singleton_self _,2,by decide,by decide,by decide⟩

/-- Of two copies of a value that overlap only the first is replaced. -/
theorem not_cleansRight_overlap :
    ¬ CleansRight (watchThenClean (ascii "abababab") (ascii "ababababab")) := by
  intro h
  have hbegins : Begins (watchThenClean (ascii "abababab") (ascii "ababababab")) 3 1
    (ascii "ababababab") :=
    ⟨⟨_,rfl⟩,by decide⟩
  have hwords : (during (watchThenClean (ascii "abababab") (ascii "ababababab")) 3).words =
    [ascii "abababab"] := by decide
  have hveiled := h.exact 3 1 _ (ascii "[redacted]ab") hbegins (by decide) (by
    rw [hwords]
    intro v hv w hw hne
    rw [List.mem_singleton] at hv hw
    exact (hne (hv.trans hw.symm)).elim)
  rw [hwords] at hveiled
  exact not_veiled_overlap hveiled

end right
end Manvi.Credentials
