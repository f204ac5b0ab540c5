import Mathlib.Data.List.Basic
import Mathlib.Data.Int.Basic
import Mathlib.Tactic

/-! The watchdog that closes a stream which has gone silent: a deadline that every output moves, and
a timer that is only sometimes moved with it. -/
namespace Manvi.Transport

/-- The time from one instant to another, at the nearest duration there is. -/
def timeSub (t u : ℤ) : ℤ := max (-2^63) (min (2^63-1) (t-u))

/-- The watchdog. The timer is the instant for which the clock's timer is set. -/
structure Watchdog where
  closer : Bool
  firstToken : Int64
  idle : Int64
  limit : Int64
  deadline : ℤ
  armed : ℤ
  timer : Option ℤ
  sawOutput : Bool
  tripped : Bool
  trippedAfter : Int64
  trippedCold : Bool
  stopped : Bool
  deriving DecidableEq

def newStallWatchdog (closer : Bool) (firstToken idle : Int64) (now : ℤ) : Watchdog where
  closer := closer
  firstToken := firstToken
  idle := idle
  limit := firstToken
  deadline := now+firstToken.toInt
  armed := now+firstToken.toInt
  timer := some (now+firstToken.toInt)
  sawOutput := false
  tripped := false
  trippedAfter := 0
  trippedCold := false
  stopped := false

namespace Watchdog

/-- What the timer's callback does under the lock, and whether it goes on to close the body. -/
def fire (now : ℤ) (w : Watchdog) : Watchdog × Bool :=
  if w.stopped || w.tripped then (w,false)
  else
    let remaining := timeSub w.deadline now
    if remaining > 0 then ({ w with armed := w.deadline, timer := some (now+remaining) },false)
    else ({ w with tripped := true, trippedAfter := w.limit, trippedCold := !w.sawOutput },w.closer)

/-- The limit that an output leaves in force. -/
def sees (w : Watchdog) : Watchdog :=
  if !w.sawOutput then { w with sawOutput := true, limit := w.idle } else w

/-- The deadline is moved, and the timer where the deadline comes before it or well after it. -/
def moves (now : ℤ) (w : Watchdog) : Watchdog :=
  let w := { w with deadline := now+w.limit.toInt }
  let drift := timeSub w.deadline w.armed
  if drift < 0 ∨ drift > (w.limit/8).toInt then
    { w with armed := w.deadline, timer := some (now+timeSub w.deadline now) }
  else w

def progress (now : ℤ) (w : Watchdog) : Watchdog :=
  if w.stopped || w.tripped then w else w.sees.moves now

def stop (w : Watchdog) : Watchdog := { w with stopped := true, timer := none }

/-- The failure to report: the limit that expired, and whether no output had come. -/
def stalled (w : Watchdog) : Option (Int64 × Bool) :=
  if !w.tripped then none else some (w.trippedAfter,w.trippedCold)

end Watchdog

/-- The watchdog with its callbacks that have still to close the body, and how often the body was
closed. -/
structure Watch where
  watchdog : Watchdog
  closing : ℕ
  closes : ℕ
  deriving DecidableEq

def watching (closer : Bool) (firstToken idle : Int64) (start : ℤ) : Watch :=
  ⟨newStallWatchdog closer firstToken idle start,0,0⟩

/-- A step of one of the watchdog's goroutines: a callback lets go of the lock before it closes the
body. -/
inductive WatchStep
  | progress (now : ℤ)
  | fire (now : ℤ)
  | close
  | stop
  deriving DecidableEq

def Watch.step (s : Watch) : WatchStep → Watch
  | .progress now => { s with watchdog := s.watchdog.progress now }
  | .fire now => { s with
    watchdog := (s.watchdog.fire now).1, closing := s.closing+(s.watchdog.fire now).2.toNat }
  | .close => if s.closing = 0 then s else { s with closing := s.closing-1, closes := s.closes+1 }
  | .stop => { s with watchdog := s.watchdog.stop }

def Watch.run (s : Watch) (steps : List WatchStep) : Watch := steps.foldl Watch.step s

namespace WatchStep

/-- The instant that a step reads off the clock. -/
def time : WatchStep → Option ℤ
  | progress now => some now
  | fire now => some now
  | _ => none

def output : WatchStep → Option ℤ
  | progress now => some now
  | _ => none

end WatchStep

/-- The instants at which there was progress. -/
def outputs (steps : List WatchStep) : List ℤ := steps.filterMap WatchStep.output

/-- The limit in force after some steps: the one for the first token until there is progress. -/
def limitInForce (firstToken idle : Int64) (steps : List WatchStep) : Int64 :=
  if outputs steps = [] then firstToken else idle

namespace Watch

@[simp] lemma run_append (s : Watch) (xs ys : List WatchStep) :
    s.run (xs ++ ys) = (s.run xs).run ys :=
    List.foldl_append

lemma run_concat (s : Watch) (steps : List WatchStep) (a : WatchStep) :
    s.run (steps ++ [a]) = (s.run steps).step a :=
  run_append s steps [a]

@[simp] lemma step_close_watchdog (s : Watch) : (s.step .close).watchdog = s.watchdog := by
  unfold step
  simp only
  split <;> rfl

end Watch

/-- The timer is never armed for later than the deadline, and the body is closed by the callback
that trips. -/
structure Fenced (s : Watch) : Prop where
  armed : s.watchdog.armed ≤ s.watchdog.deadline
  once : s.closes+s.closing = (s.watchdog.tripped && s.watchdog.closer).toNat

lemma timeSub_pos (t u : ℤ) : 0 < timeSub t u ↔ u < t := by
  unfold timeSub
  omega

lemma timeSub_neg (t u : ℤ) : timeSub t u < 0 ↔ t < u := by
  unfold timeSub
  omega

lemma timeSub_eq {t u : ℤ} (hlo : -2^63 ≤ t-u) (hhi : t-u < 2^63) : timeSub t u = t-u := by
  unfold timeSub
  omega

namespace Watchdog

/-- All that a callback can do: nothing once the watchdog is settled, wait on, or trip. -/
lemma fire_cases (now : ℤ) (w : Watchdog) :
    ((w.stopped = true ∨ w.tripped = true) ∧ w.fire now = (w,false)) ∨
    (w.stopped = false ∧ w.tripped = false ∧ now < w.deadline ∧
      w.fire now = ({ w with armed := w.deadline, timer := some (now+timeSub w.deadline now) },
        false)) ∨
    (w.stopped = false ∧ w.tripped = false ∧ w.deadline ≤ now ∧
      w.fire now = ({ w with
        tripped := true, trippedAfter := w.limit, trippedCold := !w.sawOutput },w.closer)) := by
  unfold fire
  by_cases hsettled : (w.stopped || w.tripped) = true
  · left
    rw [if_pos hsettled]
    exact ⟨by simpa using hsettled,rfl⟩
  · right
    rw [if_neg hsettled]
    simp only [Bool.or_eq_true,not_or,Bool.not_eq_true] at hsettled
    by_cases hleft : timeSub w.deadline now > 0
    · left
      refine ⟨hsettled.1,hsettled.2,(timeSub_pos _ _).mp hleft,?_⟩
      simp only [if_pos hleft]
    · right
      refine ⟨hsettled.1,hsettled.2,?_,?_⟩
      · exact not_lt.mp fun h => hleft ((timeSub_pos _ _).mpr h)
      · simp only [if_neg hleft]

lemma progress_settled {w : Watchdog} (now : ℤ) (h : w.stopped = true ∨ w.tripped = true) :
    w.progress now = w := by
  unfold progress
  rw [if_pos (by simpa using h)]

lemma progress_live {w : Watchdog} (now : ℤ) (hs : w.stopped = false) (ht : w.tripped = false) :
    w.progress now = w.sees.moves now := by
  unfold progress
  rw [hs,ht]
  rfl

@[simp] lemma sees_limit (w : Watchdog) : w.sees.limit = if w.sawOutput then
    w.limit else w.idle := by
  unfold sees
  cases w.sawOutput <;> rfl

@[simp] lemma sees_rest (w : Watchdog) : w.sees.closer = w.closer ∧ w.sees.armed = w.armed ∧
    w.sees.timer = w.timer ∧
    w.sees.idle = w.idle ∧ w.sees.firstToken = w.firstToken ∧ w.sees.sawOutput = true ∧
    w.sees.tripped = w.tripped ∧ w.sees.stopped = w.stopped := by
  unfold sees
  cases hsaw : w.sawOutput <;> simp [hsaw]

/-- The deadline is moved; the timer is left where it was only if it is not behind the deadline. -/
lemma moves_cases (now : ℤ) (w : Watchdog) :
    (w.armed ≤ now+w.limit.toInt ∧ w.moves now = { w with deadline := now+w.limit.toInt }) ∨
    w.moves now = { w with
      deadline := now+w.limit.toInt
      armed := now+w.limit.toInt
      timer := some (now+timeSub (now+w.limit.toInt) now) } := by
  unfold moves
  simp only
  split
  next => exact .inr rfl
  next h =>
    refine .inl ⟨?_,rfl⟩
    by_contra hlt
    exact h (.inl ((timeSub_neg _ _).mpr (not_le.mp hlt)))

@[simp] lemma moves_rest (now : ℤ) (w : Watchdog) : (w.moves now).closer = w.closer ∧
    (w.moves now).limit = w.limit ∧
    (w.moves now).deadline = now+w.limit.toInt ∧ (w.moves now).idle = w.idle ∧
    (w.moves now).firstToken = w.firstToken ∧
    (w.moves now).sawOutput = w.sawOutput ∧ (w.moves now).tripped = w.tripped ∧
    (w.moves now).stopped = w.stopped := by
  obtain ⟨-,h⟩ | h := moves_cases now w <;> simp [h]

lemma moves_armed (now : ℤ) (w : Watchdog) : (w.moves now).armed ≤ (w.moves now).deadline := by
  obtain ⟨hle,h⟩ | h := moves_cases now w
  · rw [h]
    exact hle
  · rw [h]

lemma moves_timer {now : ℤ} {w : Watchdog} (hset : w.timer = some w.armed) :
    (w.moves now).timer = some (w.moves now).armed := by
  obtain ⟨-,h⟩ | h := moves_cases now w
  · rw [h]
    exact hset
  · have hlo := w.limit.le_toInt
    have hhi := w.limit.toInt_lt
    rw [h]
    show some (now+timeSub (now+w.limit.toInt) now) = some (now+w.limit.toInt)
    rw [timeSub_eq (by omega) (by omega)]
    congr 1
    omega

end Watchdog

lemma Fenced.step {s : Watch} (h : Fenced s) (a : WatchStep) : Fenced (s.step a) := by
  cases a with
  | progress now =>
    cases hlive : s.watchdog.stopped || s.watchdog.tripped with
    | true =>
      have hsame : s.step (.progress now) = s := by
        show { s with watchdog := s.watchdog.progress now } = s
        rw [Watchdog.progress_settled now (by simpa using hlive)]
      rw [hsame]
      exact h
    | false =>
      rw [Bool.or_eq_false_iff] at hlive
      have hmoves := Watchdog.progress_live now hlive.1 hlive.2
      refine ⟨?_,?_⟩
      · show (s.watchdog.progress now).armed ≤ (s.watchdog.progress now).deadline
        rw [hmoves]
        exact Watchdog.moves_armed now _
      · show s.closes+s.closing = ((s.watchdog.progress now).tripped &&
          (s.watchdog.progress now).closer).toNat
        rw [hmoves]
        simpa using h.once
  | fire now =>
    have honce := h.once
    simp only [Watch.step]
    obtain ⟨-,hf⟩ | ⟨-,-,-,hf⟩ | ⟨-,htripped,-,hf⟩ := Watchdog.fire_cases now s.watchdog
    · exact ⟨by simpa only [hf] using h.armed,
        by simpa only [hf,Bool.toNat_false,Nat.add_zero] using honce⟩
    · exact ⟨by simp only [hf,le_refl],by simpa only [hf,Bool.toNat_false,Nat.add_zero] using honce⟩
    · refine ⟨by simpa only [hf] using h.armed,?_⟩
      simp only [hf,Bool.true_and]
      simp only [htripped,Bool.false_and,Bool.toNat_false] at honce
      omega
  | close =>
    by_cases hnone : s.closing = 0
    · simpa only [Watch.step,if_pos hnone] using h
    · have honce := h.once
      simp only [Watch.step,if_neg hnone]
      exact ⟨h.armed,by simp only [← honce];omega⟩
  | stop => exact ⟨h.armed,h.once⟩

/-- Whatever the goroutines do and in whatever order, the timer is not armed for later than the
deadline and the body is not closed twice. -/
lemma Fenced.run {s : Watch} (h : Fenced s) (steps : List WatchStep) : Fenced (s.run steps) := by
  induction steps generalizing s with
  | nil => exact h
  | cons a rest ih => exact ih (h.step a)

lemma fenced_watching (closer : Bool) (firstToken idle : Int64) (start : ℤ) :
    Fenced (watching closer firstToken idle start) := ⟨le_refl _,rfl⟩

lemma Fenced.closes_le_one {s : Watch} (h : Fenced s) : s.closes ≤ 1 := by
  have honce := h.once
  have hle := Bool.toNat_le (s.watchdog.tripped && s.watchdog.closer)
  omega

/-- What some steps leave: the timer set for the time it is armed for and, until the watchdog is
settled, the deadline one limit after the last output. -/
structure Kept (firstToken idle : Int64) (start : ℤ) (steps : List WatchStep)
    (s : Watch) : Prop where
  gap : s.watchdog.idle = idle
  stopped : s.watchdog.stopped = true ↔ .stop ∈ steps
  timer : s.watchdog.stopped = false → s.watchdog.timer = some s.watchdog.armed
  live : s.watchdog.stopped = false → s.watchdog.tripped = false →
    s.watchdog.sawOutput = !(outputs steps).isEmpty ∧
    s.watchdog.limit = limitInForce firstToken idle steps ∧
      s.watchdog.deadline = (outputs steps).getLastD start+s.watchdog.limit.toInt

lemma kept_watching (closer : Bool) (firstToken idle : Int64) (start : ℤ) :
    Kept firstToken idle start [] (watching closer firstToken idle start) where
  gap := rfl
  stopped := by simp [watching,newStallWatchdog]
  timer _ := rfl
  live _ _ := ⟨rfl,rfl,rfl⟩

@[simp] lemma outputs_concat (steps : List WatchStep) (a : WatchStep) :
    outputs (steps ++ [a]) = outputs steps ++ a.output.toList := by
  simp only [outputs,List.filterMap_append]
  cases hout : a.output <;> simp [hout]

section
variable {firstToken idle : Int64} {start : ℤ} {steps : List WatchStep} {s : Watch}

/-- A step that brings no output leaves the limit that is in force. -/
lemma limitInForce_concat {a : WatchStep} (h : a.output = none) :
    outputs (steps ++ [a]) = outputs steps ∧
      limitInForce firstToken idle (steps ++ [a]) = limitInForce firstToken idle steps := by
  have houts : outputs (steps ++ [a]) = outputs steps := by simp [outputs_concat,h]
  refine ⟨houts,?_⟩
  rw [limitInForce,limitInForce,houts]

lemma Kept.progress (h : Kept firstToken idle start steps s) (now : ℤ) :
    Kept firstToken idle start (steps ++ [.progress now]) (s.step (.progress now)) := by
  have houts := outputs_concat steps (.progress now)
  have hstop : .stop ∈ steps ++ [WatchStep.progress now] ↔ .stop ∈ steps := by simp
  by_cases hsettled : s.watchdog.stopped = true ∨ s.watchdog.tripped = true
  · have hsame := Watchdog.progress_settled now hsettled
    have hrest : s.step (.progress now) = s := by
      show { s with watchdog := s.watchdog.progress now } = s
      rw [hsame]
    rw [hrest]
    refine ⟨h.gap,h.stopped.trans hstop.symm,h.timer,?_⟩
    intro hs ht
    simp only [hs,ht,Bool.false_eq_true,or_self] at hsettled
  · simp only [not_or,Bool.not_eq_true] at hsettled
    obtain ⟨hs,ht⟩ := hsettled
    obtain ⟨hsaw,hlimit,-⟩ := h.live hs ht
    have hmoves := Watchdog.progress_live now hs ht
    have hnew : limitInForce firstToken idle (steps ++ [.progress now]) = idle := by
      simp [limitInForce,houts,WatchStep.output]
    refine ⟨?_,?_,?_,?_⟩
    · simpa [Watch.step,hmoves] using h.gap
    · rw [hstop,← h.stopped]
      simp [Watch.step,hmoves]
    · intro _
      simp only [Watch.step,hmoves]
      exact Watchdog.moves_timer (by simpa using h.timer hs)
    · intro _ _
      have hinforce : s.watchdog.sees.limit = idle := by
        rw [Watchdog.sees_limit,h.gap]
        split
        next hseen =>
          rw [hlimit,limitInForce,if_neg]
          intro hempty
          simp [hempty,hseen] at hsaw
        next => rfl
      simp only [Watch.step,hmoves,Watchdog.moves_rest,hinforce,hnew]
      refine ⟨by simp [houts,WatchStep.output],trivial,?_⟩
      simp [houts,WatchStep.output]

/-- Until the watchdog is stopped, no callback comes before the last output by a limit. -/
lemma Kept.fire (h : Kept firstToken idle start steps s) {now : ℤ}
    (hnow : (outputs steps).getLastD start ≤ now) :
    Kept firstToken idle start (steps ++ [.fire now]) (s.step (.fire now)) := by
  obtain ⟨houts,hforce⟩ := @limitInForce_concat firstToken idle steps (.fire now) rfl
  have hstop : .stop ∈ steps ++ [WatchStep.fire now] ↔ .stop ∈ steps := by simp
  have hdog : (s.step (.fire now)).watchdog = (s.watchdog.fire now).1 := rfl
  obtain ⟨-,hf⟩ | ⟨hs,ht,hlt,hf⟩ | ⟨hs,ht,-,hf⟩ := Watchdog.fire_cases now s.watchdog
  · refine ⟨?_,?_,?_,?_⟩ <;> rw [hdog,hf]
    · exact h.gap
    · exact h.stopped.trans hstop.symm
    · exact h.timer
    · rw [houts,hforce]
      exact h.live
  · obtain ⟨hsaw,hlimit,hdeadline⟩ := h.live hs ht
    refine ⟨?_,?_,?_,?_⟩ <;> rw [hdog,hf]
    · exact h.gap
    · exact h.stopped.trans hstop.symm
    · intro _
      have hhi := s.watchdog.limit.toInt_lt
      show some (now+timeSub s.watchdog.deadline now) = some s.watchdog.deadline
      rw [timeSub_eq (by omega) (by omega)]
      congr 1
      omega
    · intro _ _
      rw [houts,hforce]
      exact ⟨hsaw,hlimit,hdeadline⟩
  · refine ⟨?_,?_,?_,?_⟩ <;> rw [hdog,hf]
    · exact h.gap
    · exact h.stopped.trans hstop.symm
    · exact h.timer
    · intro _ htripped
      cases htripped

lemma Kept.close (h : Kept firstToken idle start steps s) :
    Kept firstToken idle start (steps ++ [.close]) (s.step .close) := by
  obtain ⟨houts,hforce⟩ := @limitInForce_concat firstToken idle steps .close rfl
  refine ⟨?_,?_,?_,?_⟩ <;> rw [Watch.step_close_watchdog]
  · exact h.gap
  · rw [h.stopped]
    simp
  · exact h.timer
  · rw [houts,hforce]
    exact h.live

lemma Kept.stop (h : Kept firstToken idle start steps s) :
    Kept firstToken idle start (steps ++ [.stop]) (s.step .stop) where
  gap := h.gap
  stopped := by simp [Watch.step,Watchdog.stop]
  timer hs := by cases hs
  live hs := by cases hs

/-- The last output, or the start, is an instant of the steps. -/
lemma lastOutput_mem (steps : List WatchStep) (start : ℤ) :
    (outputs steps).getLastD start ∈ start :: steps.filterMap WatchStep.time := by
  induction steps using List.reverseRecOn with
  | nil => simp [outputs]
  | append_singleton steps a ih =>
    rw [outputs_concat,List.filterMap_append]
    cases a with
    | progress now => simp [WatchStep.output,WatchStep.time]
    | _ =>
      simp only [WatchStep.output,Option.toList_none,List.append_nil,List.mem_cons,
        List.mem_append] at ih ⊢
      exact ih.imp id .inl

lemma Kept.step (h : Kept firstToken idle start steps s) (a : WatchStep)
    (hnow : ∀ t, a.time = some t → (outputs steps).getLastD start ≤ t) :
    Kept firstToken idle start (steps ++ [a]) (s.step a) := by
  cases a with
  | progress now => exact h.progress now
  | fire now => exact h.fire (hnow now rfl)
  | close => exact h.close
  | stop => exact h.stop

end

/-- The instants of some steps do not go back. -/
def Ordered (start : ℤ) (steps : List WatchStep) : Prop :=
  (start :: steps.filterMap WatchStep.time).Pairwise (· ≤ ·)

lemma Ordered.of_append {start : ℤ} {xs ys : List WatchStep} (h : Ordered start (xs ++ ys)) :
    Ordered start xs := by
  unfold Ordered at h ⊢
  rw [List.filterMap_append,← List.cons_append] at h
  exact (List.pairwise_append.mp h).1

lemma Ordered.before {start : ℤ} {steps : List WatchStep} {a : WatchStep}
    (h : Ordered start (steps ++ [a])) {now : ℤ}
    (hnow : a.time = some now) : ∀ t ∈ start :: steps.filterMap WatchStep.time, t ≤ now := by
  intro t ht
  unfold Ordered at h
  rw [List.filterMap_append,← List.cons_append] at h
  exact (List.pairwise_append.mp h).2.2 t ht now (by simp [hnow])

/-- No output is later than the last one. -/
lemma Ordered.le_lastOutput {start : ℤ} {steps : List WatchStep} (h : Ordered start steps) :
    ∀ t ∈ start :: outputs steps, t ≤ (outputs steps).getLastD start := by
  induction steps using List.reverseRecOn with
  | nil => simp [outputs]
  | append_singleton steps a ih =>
    have hlast := ih h.of_append
    rw [outputs_concat]
    cases a with
    | progress now =>
      intro t ht
      have hl : (outputs steps).getLastD start ≤ now := h.before rfl _ (lastOutput_mem steps start)
      simp only [WatchStep.output,Option.toList_some,List.mem_cons,List.mem_append,
        List.getLastD_concat] at ht hlast ⊢
      obtain rfl | ht | rfl | hnil := ht
      · exact (hlast _ (.inl rfl)).trans hl
      · exact (hlast t (.inr ht)).trans hl
      · exact le_refl _
      · cases hnil
    | _ => simpa only [WatchStep.output,Option.toList_none,List.append_nil] using hlast

lemma kept_run (closer : Bool) (firstToken idle : Int64) (start : ℤ) (steps : List WatchStep)
    (ordered : Ordered start steps) :
    Kept firstToken idle start steps ((watching closer firstToken idle start).run steps) := by
  induction steps using List.reverseRecOn with
  | nil => exact kept_watching closer firstToken idle start
  | append_singleton steps a ih =>
    rw [Watch.run_concat]
    exact (ih ordered.of_append).step a (fun t ht =>
      ordered.before ht _ (lastOutput_mem steps start))

section
variable {firstToken idle : Int64} {start : ℤ} {before : List WatchStep} {a : WatchStep} {s : Watch}

/-- Only a callback trips the watchdog, and not until the limit in force has passed since every
output. -/
lemma Kept.trips_silent (h : Kept firstToken idle start before s) (ordered : Ordered start before)
    (hcold : s.watchdog.tripped = false) (htrips : (s.step a).watchdog.tripped = true) :
    ∃ now, a = .fire now ∧ ∀ t ∈ start :: outputs before,
    t+(limitInForce firstToken idle before).toInt ≤ now := by
  cases a with
  | progress now =>
    exfalso
    have hsame : (s.watchdog.progress now).tripped = s.watchdog.tripped := by
      unfold Watchdog.progress
      split <;> simp
    have htrips' : (s.watchdog.progress now).tripped = true := htrips
    rw [hsame,hcold] at htrips'
    cases htrips'
  | close =>
    rw [Watch.step_close_watchdog,hcold] at htrips
    cases htrips
  | stop =>
    exfalso
    have htrips' : s.watchdog.tripped = true := htrips
    rw [hcold] at htrips'
    cases htrips'
  | fire now =>
    refine ⟨now,rfl,?_⟩
    have htrips' : (s.watchdog.fire now).1.tripped = true := htrips
    obtain ⟨-,hf⟩ | ⟨-,-,-,hf⟩ | ⟨hs,ht,hpast,hf⟩ := Watchdog.fire_cases now s.watchdog
    · rw [hf,hcold] at htrips'
      cases htrips'
    · rw [hf] at htrips'
      exact absurd (htrips'.symm.trans hcold) (by decide)
    · obtain ⟨-,hlimit,hdeadline⟩ := h.live hs ht
      intro t ht
      have hle := ordered.le_lastOutput t ht
      rw [← hlimit]
      omega

/-- A callback at or after the deadline of a watchdog that is not stopped leaves it tripped. -/
lemma Kept.trips_late (h : Kept firstToken idle start before s) (hgoes : .stop ∉ before) {now : ℤ}
    (hpast : s.watchdog.deadline ≤ now) : (s.step (.fire now)).watchdog.tripped = true := by
  show (s.watchdog.fire now).1.tripped = true
  obtain ⟨hsettled,hf⟩ | ⟨-,-,hearly,-⟩ | ⟨-,-,-,hf⟩ := Watchdog.fire_cases now s.watchdog
  · rw [hf]
    obtain hs | ht := hsettled
    · exact absurd (h.stopped.mp hs) hgoes
    · exact ht
  · omega
  · rw [hf]

end

/-- The watchdog fires exactly on silence, over a run of its goroutines' steps: in every state the
timer is set for the time it is armed for, never later than the deadline, and the body was closed at
most once; the watchdog trips only in a callback one limit after every output, no step closes the
body once it is stopped, and a callback at or past the deadline of a watchdog that is not stopped
does trip it. -/
structure FiresOnSilence (closer : Bool) (firstToken idle : Int64) (start : ℤ)
    (steps : List WatchStep) : Prop where
  armed : ∀ before rest, steps = before ++ rest →
    ((watching closer firstToken idle start).run before).watchdog.armed ≤
      ((watching closer firstToken idle start).run before).watchdog.deadline
  timer : ∀ before rest, steps = before ++ rest → .stop ∉ before →
    ((watching closer firstToken idle start).run before).watchdog.timer =
      some ((watching closer firstToken idle start).run before).watchdog.armed
  once : ((watching closer firstToken idle start).run steps).closes ≤ 1
  silent : ∀ before a rest, steps = before ++ a :: rest →
    ((watching closer firstToken idle start).run before).watchdog.tripped = false →
    ((watching closer firstToken idle start).run (before ++ [a])).watchdog.tripped = true →
    ∃ now, a = .fire now ∧ ∀ t ∈ start :: outputs before,
    t+(limitInForce firstToken idle before).toInt ≤ now
  quiet : ∀ before a rest, steps = before ++ a :: rest → .stop ∈ before →
    ((watching closer firstToken idle start).run (before ++ [a])).closes =
      ((watching closer firstToken idle start).run before).closes
  trips : ∀ before now rest, steps = before ++ .fire now :: rest → .stop ∉ before →
    ((watching closer firstToken idle start).run before).watchdog.deadline ≤ now →
    ((watching closer firstToken idle start).run (before ++ [.fire now])).watchdog.tripped = true

/-- No callback that has tripped stands before its close when the watchdog is stopped. -/
def StopsClear (closer : Bool) (firstToken idle : Int64) (start : ℤ) (steps : List WatchStep) :
    Prop :=
  ∀ before rest, steps = before ++ .stop :: rest →
  ((watching closer firstToken idle start).run before).closing = 0

section
variable {closer : Bool} {firstToken idle : Int64} {start : ℤ} {steps : List WatchStep}

/-- Once the watchdog is stopped, no callback begins to close the body. -/
lemma step_closing_stopped {s : Watch} (hstopped : s.watchdog.stopped = true) (a : WatchStep) :
    (s.step a).closing ≤ s.closing := by
  cases a with
  | progress now => exact Nat.le_refl _
  | stop => exact Nat.le_refl _
  | close =>
    simp only [Watch.step]
    split
    · exact Nat.le_refl _
    · exact Nat.sub_le _ _
  | fire now =>
    have hf : s.watchdog.fire now = (s.watchdog,false) := by
      unfold Watchdog.fire
      rw [if_pos (by simp [hstopped])]
    simp [Watch.step,hf]

lemma StopsClear.of_append {more : List WatchStep}
    (h : StopsClear closer firstToken idle start (steps ++ more)) :
    StopsClear closer firstToken idle start steps := by
  intro before rest hsplit
  refine h before (rest ++ more) ?_
  rw [hsplit,List.append_assoc]
  rfl

/-- Behind a stop that is clear no callback is left before its close. -/
lemma closing_of_stop (ordered : Ordered start steps)
    (hclear : StopsClear closer firstToken idle start steps)
    (hstop : .stop ∈ steps) : ((watching closer firstToken idle start).run steps).closing = 0 := by
  induction steps using List.reverseRecOn with
  | nil => cases hstop
  | append_singleton steps a ih =>
    have hkept := kept_run closer firstToken idle start steps ordered.of_append
    rw [Watch.run_concat]
    by_cases hbefore : .stop ∈ steps
    · have hle := step_closing_stopped (hkept.stopped.mpr hbefore) a
      have hzero := ih ordered.of_append hclear.of_append hbefore
      omega
    · have ha : .stop = a := by simpa [hbefore] using hstop
      subst ha
      exact hclear steps [] rfl

/-- The body is closed by nothing but a callback that stands before its close. -/
lemma step_closes {s : Watch} (hclosing : s.closing = 0) (a : WatchStep) :
    (s.step a).closes = s.closes := by
  cases a with
  | close => simp only [Watch.step,if_pos hclosing]
  | _ => rfl

lemma firesOnSilence_of_clear (ordered : Ordered start steps)
    (hclear : StopsClear closer firstToken idle start steps) :
    FiresOnSilence closer firstToken idle start steps := by
  have hfenced := fun before => (fenced_watching closer firstToken idle start).run before
  have hordered : ∀ before rest, steps = before ++ rest → Ordered start before := by
    intro before rest hsplit
    exact (hsplit ▸ ordered).of_append
  have hkept := fun before rest hsplit =>
    kept_run closer firstToken idle start before (hordered before rest hsplit)
  refine ⟨fun before _ _ => (hfenced before).armed,?_,(hfenced steps).closes_le_one,?_,?_,?_⟩
  · intro before rest hsplit hgoes
    have hk := hkept before rest hsplit
    apply hk.timer
    rw [← Bool.not_eq_true,hk.stopped]
    exact hgoes
  · intro before a rest hsplit hcold htrips
    rw [Watch.run_concat] at htrips
    exact (hkept before _ hsplit).trips_silent (hordered before _ hsplit) hcold htrips
  · intro before a rest hsplit hstop
    rw [Watch.run_concat]
    exact step_closes (closing_of_stop (hordered before _ hsplit)
      (hsplit ▸ hclear).of_append hstop) a
  · intro before now rest hsplit hgoes hpast
    rw [Watch.run_concat]
    exact (hkept before _ hsplit).trips_late hgoes hpast

/-- A run that closes nothing after a stop has closed as much at its end as before the stop. -/
lemma FiresOnSilence.closes_eq {before rest : List WatchStep}
    (h : FiresOnSilence closer firstToken idle start (before ++ rest))
    (hstop : .stop ∈ before) :
    ((watching closer firstToken idle start).run (before ++ rest)).closes =
      ((watching closer firstToken idle start).run before).closes := by
  suffices hall : ∀ mid tail, rest = mid ++ tail →
    ((watching closer firstToken idle start).run (before ++ mid)).closes =
      ((watching closer firstToken idle start).run before).closes by
    exact hall rest [] (List.append_nil rest).symm
  intro mid
  induction mid using List.reverseRecOn with
  | nil => simp
  | append_singleton mid a ih =>
    intro tail hsplit
    rw [← List.append_assoc,h.quiet (before ++ mid) a tail (by simp [hsplit])
      (List.mem_append_left _ hstop)]
    exact ih (a :: tail) (by simp [hsplit])

/-- A callback that stands before its close is lost by no step: it goes on standing there or has
closed the body. -/
lemma step_total (s : Watch) (a : WatchStep) :
    s.closes+s.closing ≤ (s.step a).closes+(s.step a).closing := by
  cases a with
  | progress now => exact Nat.le_refl _
  | stop => exact Nat.le_refl _
  | fire now =>
    simp only [Watch.step]
    omega
  | close =>
    simp only [Watch.step]
    split
    · exact Nat.le_refl _
    · simp only
      omega

lemma run_total (s : Watch) (steps : List WatchStep) :
    s.closes+s.closing ≤ (s.run steps).closes+(s.run steps).closing := by
  induction steps generalizing s with
  | nil => exact Nat.le_refl _
  | cons a rest ih => exact (step_total s a).trans (ih (s.step a))

/-- A callback that a stop overtakes shows once it comes to its close. -/
lemma FiresOnSilence.stopsClear
    (h : FiresOnSilence closer firstToken idle start (steps ++ [.close])) :
    StopsClear closer firstToken idle start steps := by
  intro before rest hsplit
  by_contra hclosing
  have hend : steps ++ [.close] = (before ++ [.stop]) ++ (rest ++ [.close]) := by simp [hsplit]
  have hstops : .stop ∈ before ++ [WatchStep.stop] :=
    List.mem_append_right before (List.mem_singleton_self _)
  rw [hend] at h
  have hsame := h.closes_eq hstops
  have hlast := h.quiet (before ++ [.stop] ++
    rest) .close [] (by simp) (List.mem_append_left _ hstops)
  rw [← List.append_assoc,Watch.run_concat] at hsame
  rw [Watch.run_concat] at hlast
  have hfirst : ((watching closer firstToken idle start).run (before ++ [.stop])).closes =
      ((watching closer firstToken idle start).run before).closes := by
    rw [Watch.run_concat]
    rfl
  have htotal := run_total ((watching closer firstToken idle start).run before) ([.stop] ++ rest)
  rw [← Watch.run_append,← List.append_assoc] at htotal
  -- so one callback still stands before its close at the last step, and there it closes the body
  have hstands : ((watching closer firstToken idle start).run (before ++ [.stop] ++ rest)).closing ≠
    0 := by omega
  have hcloses : (((watching closer firstToken idle start).run (before ++ [.stop] ++
    rest)).step .close).closes =
      ((watching closer firstToken idle start).run (before ++ [.stop] ++ rest)).closes+1 := by
    simp only [Watch.step,if_neg hstands]
  omega

end

/-- In every run, the watchdog fires exactly on silence where each stop finds no callback before its
close; and where one does, it does not once that callback has come to its close. -/
theorem watchdog_fires_on_silence (closer : Bool) (firstToken idle : Int64) (start : ℤ)
    (steps : List WatchStep)
    (ordered : Ordered start steps) :
    (StopsClear closer firstToken idle start steps →
      FiresOnSilence closer firstToken idle start steps) ∧
    (FiresOnSilence closer firstToken idle start (steps ++ [.close]) →
      StopsClear closer firstToken idle start steps) :=
  ⟨firesOnSilence_of_clear ordered,FiresOnSilence.stopsClear⟩

/-- A first output at 10, a callback for the old deadline, and silence until the idle limit has
passed. -/
def quietSteps : List WatchStep := [.progress 10,.fire 20,.fire 30,.close,.stop]

lemma stopsClear_quietSteps : StopsClear true 100 20 0 quietSteps := by
  intro before rest hsplit
  match before,hsplit with
  | [_,_,_,_],hsplit =>
    simp only [quietSteps,List.cons_append,List.nil_append,List.cons.injEq] at hsplit
    obtain ⟨rfl,rfl,rfl,rfl,-⟩ := hsplit
    decide
  | [],hsplit => simp [quietSteps] at hsplit
  | [_],hsplit => simp [quietSteps] at hsplit
  | [_,_],hsplit => simp [quietSteps] at hsplit
  | [_,_,_],hsplit => simp [quietSteps] at hsplit
  | _ :: _ :: _ :: _ :: _ :: _,hsplit => simp [quietSteps] at hsplit

theorem watchdog_fires_on_silence_quiet :
    FiresOnSilence true 100 20 0 quietSteps ∧
      ((watching true 100 20 0).run quietSteps).watchdog.stalled = some (20,false) ∧
      ((watching true 100 20 0).run quietSteps).closes = 1 :=
  ⟨(watchdog_fires_on_silence true 100 20 0 quietSteps
    (by unfold Ordered;decide)).1 stopsClear_quietSteps,
    by decide,by decide⟩

/-- The callback at 10 trips and lets go of the lock, the watchdog is stopped, and then the body is
closed. -/
theorem watchdog_closes_after_stop :
    Ordered 0 [.fire 10,.stop,.close] ∧ ¬ FiresOnSilence true 10 20 0 [.fire 10,.stop,.close] := by
  refine ⟨by unfold Ordered;decide,?_⟩
  intro h
  have hquiet := h.quiet [.fire 10,.stop] .close [] rfl (by decide)
  exact absurd hquiet (by decide)

end Manvi.Transport
