import Manvi.Encoding.Course
import Manvi.Encoding.Replace
import Manvi.Encoding.Space

/-! A scrubber of credentials: calls that watch values and calls that clean texts, in any order of
their sections. -/
namespace Manvi.Credentials
open Manvi.Encoding

/-- What a secret renders as everywhere. -/
def redacted : Bytes := ascii "[redacted]"

/-- The shortest value that is watched. -/
def minScrubLen : ℕ := 8

def withheldStart : Bytes := ascii "[withheld: the credential scrubber is not armed"

def withheld (reason : Bytes) : Bytes := withheldStart ++ ascii ": " ++ reason ++ ascii "]"

def errScrubberWiped : Bytes := ascii "credentials: a watched value was wiped by memguard"

/-- A credential, and the error when it could not be sealed. -/
structure Secret where
  value : Bytes
  source : Bytes
  err : Option Bytes
  deriving Repr, DecidableEq

def newSecret (value source : Bytes) (sealing : Option Bytes) : Secret :=
  ⟨value,source,sealing.map (fun e => ascii "credentials: sealing the credential from " ++ source ++
    ascii ": " ++ e)⟩

def couldNotWatch (source err : Bytes) : Bytes :=
  ascii "credentials: the scrubber could not watch the value from " ++ source ++ ascii ": " ++ err

/-- A locked buffer; one that was wiped reads as nothing. -/
structure Buffer where
  bytes : Bytes
  wiped : Bool
  deriving Repr, DecidableEq

def Buffer.string (b : Buffer) : Bytes := if b.wiped then [] else b.bytes

def Buffer.size (b : Buffer) : ℕ := b.string.length

/-- What resolving the credential of a provider comes to. -/
inductive Resolution where
  | missing
  | failed (value err : Bytes)
  | found (secret : Secret)
  deriving Repr, DecidableEq

inductive Call where
  | watch (secret : Secret)
  | watchValue (value source : Bytes)
  | watchAll (resolved : List Resolution)
  | clean (text : Bytes)

/-- Where a call is: before one of its sections, or returned. -/
inductive Task where
  | watch (secret : Secret)
  | watchValue (value source : Bytes)
  | watchAll (done : List Bytes) (resolved : List Resolution)
  | watched (values : List Bytes)
  | clean (text : Bytes)
  | cleaning (left : List ℕ) (text : Bytes)
  | cleaned (text : Bytes)
  | withheld (reason : Bytes)
  deriving Repr, DecidableEq

def Call.task : Call → Task
  | .watch s => .watch s
  | .watchValue v src => .watchValue v src
  | .watchAll rs => .watchAll [] rs
  | .clean text => .clean text

/-- What a section meets: whether memory can be sealed, opened and locked, and the order a sort
gives buffers of one size. -/
structure Env where
  sealing : Option Bytes
  opening : Option Bytes
  locking : Option Bytes
  order : List ℕ

/-- The buffers by their places; the scrubber watches some, and has a reason when it is not
armed. -/
structure World where
  bufs : List Buffer
  values : List ℕ
  unarmed : Option Bytes
  tasks : List Task
  deriving Repr, DecidableEq

def World.new : World := ⟨[],[],none,[]⟩

namespace World

def buffer (w : World) (id : ℕ) : Buffer := (w.bufs[id]?).getD ⟨[],true⟩

def markUnarmed (w : World) (err : Bytes) : World := { w with unarmed := some (w.unarmed.getD err) }

/-- The buffers in the order of a sort by size, the largest first. -/
def sorted (w : World) (order ids : List ℕ) : List ℕ :=
  if order.Perm ids ∧ order.Pairwise (fun a b => (w.buffer b).size ≤ (w.buffer a).size) then order
  else ids.mergeSort (fun a b => (w.buffer b).size ≤ (w.buffer a).size)

/-- Hold a value in a buffer of its own. -/
def publish (w : World) (value : Bytes) (order : List ℕ) : World :=
  let held : World := { w with bufs := w.bufs ++ [⟨value,false⟩] }
  { held with values := held.sorted order (w.values ++ [w.bufs.length]) }

def watch (w : World) (s : Secret) (env : Env) : World :=
  if s.value = [] then w
  else if s.value.length < minScrubLen then w
  else match s.err with
    | some err => w.markUnarmed (couldNotWatch s.source err)
    | none => match env.opening with
      | some err => w.markUnarmed (couldNotWatch s.source
          (ascii "credentials: opening the sealed credential from " ++ s.source ++
            ascii ": " ++ err))
      | none =>
        if w.values.any (fun id => (w.buffer id).string = s.value) then w
        else match env.locking with
          | some err => w.markUnarmed (couldNotWatch s.source err)
          | none => w.publish s.value env.order

/-- The next section of a call. -/
def advance (w : World) (env : Env) : Task → World × Task
  | .watch s => (w.watch s env,.watched [s.value])
  | .watchValue v src =>
    if v.length < minScrubLen then (w,.watched [v])
    else if w.values.any (fun b => (w.buffer b).string = v) then (w,.watched [v])
    else (w,.watch (newSecret v src env.sealing))
  | .watchAll done [] => (w,.watched done)
  | .watchAll done (.missing :: rest) => (w,.watchAll done rest)
  | .watchAll done (.failed v err :: rest) => (w.markUnarmed err,.watchAll (done ++ [v]) rest)
  | .watchAll done (.found s :: rest) => (w.watch s env,.watchAll (done ++ [s.value]) rest)
  | .clean text => match w.unarmed with
    | some reason => (w,.withheld reason)
    | none => (w,.cleaning w.values text)
  | .cleaning [] text => (w,.cleaned text)
  | .cleaning (b :: left) text =>
    if (w.buffer b).string = [] then
      (w.markUnarmed errScrubberWiped,.withheld (w.unarmed.getD errScrubberWiped))
    else (w,.cleaning left (replaceAll id (w.buffer b).string redacted text))
  | t => (w,t)

end World

/-- A call comes in, goes on, or some buffers are wiped. -/
inductive Act where
  | call (c : Call)
  | advance (i : ℕ) (env : Env)
  | wipe (bufs : List ℕ)

def wipeAt (bufs : List ℕ) (i : ℕ) (b : Buffer) : Buffer :=
  if i ∈ bufs then { b with wiped := true } else b

def step (w : World) : Act → World
  | .call c => { w with tasks := w.tasks ++ [c.task] }
  | .advance i env => match w.tasks[i]? with
    | none => w
    | some t => { (w.advance env t).1 with
      tasks := (w.advance env t).1.tasks.set i (w.advance env t).2 }
  | .wipe bufs => { w with bufs := w.bufs.mapIdx (wipeAt bufs) }

/-- A world after some acts. -/
def after (acts : List Act) : World := acts.foldl step World.new

/-- A world in the course of some acts. -/
def during (acts : List Act) (n : ℕ) : World := course step World.new acts n

section values
variable {w : World} {b : ℕ}

/-- The values that a call has been through with. -/
def Task.asked : Task → List Bytes
  | .watchAll done _ => done
  | .watched values => values
  | _ => []

/-- A value that some call was to watch is long enough to be. -/
def World.Asked (w : World) (v : Bytes) : Prop :=
  minScrubLen ≤ v.length ∧ ∃ t ∈ w.tasks, v ∈ t.asked

/-- The values that are watched, longest first. -/
def World.words (w : World) : List Bytes := w.values.map (fun b => (w.buffer b).bytes)

def World.live (w : World) (b : ℕ) : Prop := (w.buffer b).wiped = false

lemma string_of_live (h : w.live b) : (w.buffer b).string = (w.buffer b).bytes := by
  rw [Buffer.string,show (w.buffer b).wiped = false from h]
  rfl

lemma size_of_live (h : w.live b) : (w.buffer b).size = (w.buffer b).bytes.length := by
  rw [Buffer.size,string_of_live h]

lemma live_of_string (h : (w.buffer b).string ≠ []) : w.live b := by
  unfold World.live
  by_contra hwiped
  rw [Bool.not_eq_false] at hwiped
  exact h (by rw [Buffer.string,hwiped]; rfl)

lemma perm_sorted (order ids : List ℕ) : (w.sorted order ids).Perm ids := by
  unfold World.sorted
  split_ifs with h
  · exact h.1
  · exact List.mergeSort_perm _ _

lemma pairwise_sorted (order ids : List ℕ) :
    (w.sorted order ids).Pairwise (fun a b => (w.buffer b).size ≤ (w.buffer a).size) := by
  unfold World.sorted
  split_ifs with h
  · exact h.2
  · have hsort : (ids.mergeSort (fun a b =>
      decide ((w.buffer b).size ≤ (w.buffer a).size))).Pairwise
        (fun a b => decide ((w.buffer b).size ≤ (w.buffer a).size) = true) := by
      refine List.pairwise_mergeSort ?_ ?_ ids
      · intro a b c hab hbc
        simp only [decide_eq_true_eq] at hab hbc ⊢
        omega
      · intro a b
        simp only [Bool.or_eq_true,decide_eq_true_eq]
        omega
    exact hsort.imp (fun h => by simpa using h)

end values

/-- The buffers of a scrubber: each holds a value long enough, those that are live hold different
ones, the longest first, and each value that was to be watched is held or the scrubber is not
armed. -/
structure Sound (w : World) : Prop where
  there : ∀ b ∈ w.values, b < w.bufs.length
  once : w.values.Nodup
  long : ∀ b ∈ w.values, minScrubLen ≤ (w.buffer b).bytes.length
  apart : ∀ a ∈ w.values, ∀ b ∈ w.values, w.live a → w.live b →
    (w.buffer a).bytes = (w.buffer b).bytes → a = b
  order : w.values.Pairwise (fun a b => w.live a → w.live b →
    (w.buffer b).bytes.length ≤ (w.buffer a).bytes.length)
  held : ∀ v, w.Asked v → v ∈ w.words ∨ w.unarmed.isSome = true

lemma sound_new : Sound World.new where
  there := fun _ h => (by cases h)
  once := List.nodup_nil
  long := fun _ h => (by cases h)
  apart := fun _ h => (by cases h)
  order := List.Pairwise.nil
  held := by
    rintro v ⟨_,t,ht,_⟩
    cases ht

section sound
variable {w w' : World} {b : ℕ} {v : Bytes} {s : Secret} {env : Env} {t : Task}

@[simp] lemma buffer_markUnarmed (err : Bytes) : (w.markUnarmed err).buffer b = w.buffer b := rfl

/-- What a world keeps: its buffers but for wiping, what is watched, and the reason it is not
armed. -/
structure Grows (w w' : World) : Prop where
  bufs : w.bufs.length ≤ w'.bufs.length
  bytes : ∀ b < w.bufs.length, (w'.buffer b).bytes = (w.buffer b).bytes
  live : ∀ b < w.bufs.length, w'.live b → w.live b
  values : ∀ b ∈ w.values, b ∈ w'.values
  unarmed : ∀ r, w.unarmed = some r → w'.unarmed = some r

lemma Grows.refl (w : World) : Grows w w :=
    ⟨le_rfl,fun _ _ => rfl,fun _ _ h => h,fun _ h => h,fun _ h => h⟩

lemma Grows.trans {w'' : World} (h : Grows w w') (h' : Grows w' w'') : Grows w w'' := by
  refine ⟨h.bufs.trans h'.bufs,fun b hb => ?_,fun b hb hl => ?_,
    fun b hb => h'.values b (h.values b hb),fun r hr => h'.unarmed r (h.unarmed r hr)⟩
  · rw [h'.bytes b (hb.trans_le h.bufs),h.bytes b hb]
  · exact h.live b hb (h'.live b (hb.trans_le h.bufs) hl)

lemma grows_markUnarmed (w : World) (err : Bytes) : Grows w (w.markUnarmed err) := by
  refine ⟨le_rfl,fun _ _ => rfl,fun _ _ h => h,fun _ h => h,fun r hr => ?_⟩
  rw [World.markUnarmed,hr]
  rfl

/-- What a call of Watch does: nothing, or the scrubber is not armed any more, or the value is
held. -/
lemma watch_cases (w : World) (s : Secret) (env : Env) :
    (w.watch s env = w ∧ (s.value.length < minScrubLen ∨ s.value ∈ w.words)) ∨
    (∃ r, w.watch s env = w.markUnarmed r)
    ∨ (w.watch s env = w.publish s.value env.order ∧ minScrubLen ≤ s.value.length
      ∧ ∀ b ∈ w.values, w.live b → (w.buffer b).bytes ≠ s.value) := by
  unfold World.watch
  by_cases hnil : s.value = []
  · rw [if_pos hnil]
    refine .inl ⟨rfl,.inl ?_⟩
    rw [hnil]
    decide
  · rw [if_neg hnil]
    by_cases hshort : s.value.length < minScrubLen
    · rw [if_pos hshort]
      exact .inl ⟨rfl,.inl hshort⟩
    · rw [if_neg hshort]
      cases s.err with
      | some err => exact .inr (.inl ⟨_,rfl⟩)
      | none =>
        cases env.opening with
        | some err => exact .inr (.inl ⟨_,rfl⟩)
        | none =>
          by_cases hany : w.values.any (fun b => (w.buffer b).string = s.value) = true
          · simp only [if_pos hany]
            obtain ⟨b,hb,hstring⟩ := List.any_eq_true.mp hany
            simp only [decide_eq_true_eq] at hstring
            have hlive : w.live b := live_of_string (by rw [hstring]; exact hnil)
            refine .inl ⟨trivial,.inr (List.mem_map.mpr ⟨b,hb,?_⟩)⟩
            rw [← hstring,string_of_live hlive]
          · simp only [if_neg hany]
            cases env.locking with
            | some err => exact .inr (.inl ⟨_,rfl⟩)
            | none =>
              refine .inr (.inr ⟨rfl,Nat.le_of_not_lt hshort,fun b hb hlive hsame => hany ?_⟩)
              refine List.any_eq_true.mpr ⟨b,hb,?_⟩
              rw [decide_eq_true_eq,string_of_live hlive,hsame]

lemma buffer_publish_old (order : List ℕ) (h : b < w.bufs.length) :
    (w.publish v order).buffer b = w.buffer b := by
  simp only [World.publish,World.buffer]
  rw [List.getElem?_append_left h]

@[simp] lemma buffer_publish_new (order : List ℕ) :
    (w.publish v order).buffer w.bufs.length = ⟨v,false⟩ := by
  simp [World.publish,World.buffer]

@[simp] lemma mem_publish (order : List ℕ) :
    b ∈ (w.publish v order).values ↔ b ∈ w.values ∨ b = w.bufs.length := by
  have hperm := perm_sorted (w := { w with bufs := w.bufs ++ [⟨v,false⟩] }) order (w.values ++
    [w.bufs.length])
  rw [World.publish]
  simp only [hperm.mem_iff,List.mem_append,List.mem_singleton]

lemma grows_publish (w : World) (v : Bytes) (order : List ℕ) : Grows w (w.publish v order) := by
  refine ⟨by simp [World.publish],fun b hb => ?_,fun b hb hl => ?_,
    fun b hb => (mem_publish order).mpr (.inl hb),fun _ hr => hr⟩
  · rw [buffer_publish_old order hb]
  · rwa [World.live,buffer_publish_old order hb] at hl

lemma Sound.publish (h : Sound w) (order : List ℕ) (hlen : minScrubLen ≤ v.length)
    (hnew : ∀ b ∈ w.values, w.live b → (w.buffer b).bytes ≠ v) : Sound (w.publish v order) := by
  have hold : ∀ b ∈ w.values, (w.publish v order).buffer b = w.buffer b :=
    fun b hb => buffer_publish_old order (h.there b hb)
  have hfresh := buffer_publish_new (w := w) (v := v) order
  refine ⟨?_,?_,?_,?_,?_,?_⟩
  · intro b hb
    have hlength : (w.publish v order).bufs.length = w.bufs.length+1 := by simp [World.publish]
    rw [hlength]
    obtain hb | rfl := (mem_publish order).mp hb
    · have := h.there b hb
      omega
    · omega
  · refine (perm_sorted (w := { w with bufs := w.bufs ++ [⟨v,false⟩] }) order _).nodup_iff.mpr ?_
    refine List.Nodup.append h.once (List.nodup_singleton _) ?_
    rw [List.disjoint_singleton]
    intro hb
    have := h.there _ hb
    omega
  · intro b hb
    obtain hb | rfl := (mem_publish order).mp hb
    · rw [hold b hb]
      exact h.long b hb
    · rw [hfresh]
      exact hlen
  · intro a ha b hb
    unfold World.live
    obtain ha | rfl := (mem_publish order).mp ha
    · obtain hb | rfl := (mem_publish order).mp hb
      · rw [hold a ha,hold b hb]
        exact h.apart a ha b hb
      · rw [hold a ha,hfresh]
        exact fun hl _ hsame => (hnew a ha hl hsame).elim
    · obtain hb | rfl := (mem_publish order).mp hb
      · rw [hold b hb,hfresh]
        exact fun _ hl hsame => (hnew b hb hl hsame.symm).elim
      · exact fun _ _ _ => rfl
  · have hsorted := pairwise_sorted (w := { w with bufs := w.bufs ++ [⟨v,false⟩] }) order
      (w.values ++ [w.bufs.length])
    refine hsorted.imp ?_
    intro a b hsize ha hb
    have hsame : ∀ c, (w.publish v order).buffer c = ({ w with
      bufs := w.bufs ++ [⟨v,false⟩] } : World).buffer c := fun _ => rfl
    rw [← hsame,← hsame,size_of_live ha,size_of_live hb] at hsize
    exact hsize
  · intro x hx
    obtain hmem | hunarmed := h.held x hx
    · obtain ⟨b,hb,rfl⟩ := List.mem_map.mp hmem
      refine .inl (List.mem_map.mpr ⟨b,(mem_publish order).mpr (.inl hb),?_⟩)
      rw [hold b hb]
    · exact .inr hunarmed

lemma mem_words_publish (order : List ℕ) : v ∈ (w.publish v order).words :=
  List.mem_map.mpr ⟨w.bufs.length,(mem_publish order).mpr (.inr rfl),by rw [buffer_publish_new]⟩

lemma Sound.markUnarmed (h : Sound w) (err : Bytes) : Sound (w.markUnarmed err) :=
  ⟨h.there,h.once,h.long,h.apart,h.order,fun _ _ => .inr rfl⟩

lemma Sound.watch (h : Sound w) (s : Secret) (env : Env) : Sound (w.watch s env) := by
  obtain ⟨he,_⟩ | ⟨r,he⟩ | ⟨he,hlen,hnew⟩ := watch_cases w s env
  · rwa [he]
  · rw [he]
    exact h.markUnarmed r
  · rw [he]
    exact h.publish _ hlen hnew

lemma grows_watch (w : World) (s : Secret) (env : Env) : Grows w (w.watch s env) := by
  obtain ⟨he,_⟩ | ⟨r,he⟩ | ⟨he,_⟩ := watch_cases w s env
  · rw [he]
    exact Grows.refl w
  · rw [he]
    exact grows_markUnarmed w r
  · rw [he]
    exact grows_publish w _ _

/-- A value that was to be watched is held from then on, or the scrubber is not armed. -/
lemma held_watch (hlen : minScrubLen ≤ s.value.length) :
    s.value ∈ (w.watch s env).words ∨ (w.watch s env).unarmed.isSome = true := by
  obtain ⟨he,hshort | hmem⟩ | ⟨r,he⟩ | ⟨he,_⟩ := watch_cases w s env
  · omega
  · rw [he]
    exact .inl hmem
  · rw [he]
    exact .inr rfl
  · rw [he]
    exact .inl (mem_words_publish _)

lemma tasks_watch : (w.watch s env).tasks = w.tasks := by
  obtain ⟨he,_⟩ | ⟨r,he⟩ | ⟨he,_⟩ := watch_cases w s env
  all_goals rw [he]
  · rfl
  · rfl

lemma tasks_advance (w : World) (env : Env) (t : Task) : (w.advance env t).1.tasks = w.tasks := by
  unfold World.advance
  split
  all_goals try rfl
  · exact tasks_watch
  · split_ifs <;> rfl
  · exact tasks_watch
  · split <;> rfl
  · split_ifs <;> rfl

lemma Sound.advance (h : Sound w) (env : Env) (t : Task) : Sound (w.advance env t).1 := by
  unfold World.advance
  split
  all_goals try exact h
  · exact h.watch _ env
  · split_ifs <;> exact h
  · exact h.markUnarmed _
  · exact h.watch _ env
  · split <;> exact h
  · split_ifs
    · exact h.markUnarmed _
    · exact h

lemma grows_advance (w : World) (env : Env) (t : Task) : Grows w (w.advance env t).1 := by
  unfold World.advance
  split
  all_goals try exact Grows.refl w
  · exact grows_watch w _ env
  · split_ifs <;> exact Grows.refl w
  · exact grows_markUnarmed w _
  · exact grows_watch w _ env
  · split <;> exact Grows.refl w
  · split_ifs
    · exact grows_markUnarmed w _
    · exact Grows.refl w

/-- The values a call is through with after a section were so before, or are held, or the scrubber
is not armed. -/
lemma asked_advance (w : World) (env : Env) (t : Task) (hv : v ∈ (w.advance env t).2.asked)
    (hlen : minScrubLen ≤ v.length) :
    v ∈ t.asked ∨ v ∈ (w.advance env t).1.words ∨ (w.advance env t).1.unarmed.isSome = true := by
  have hone : ∀ {x : Bytes}, v ∈ [x] → v = x := List.mem_singleton.mp
  revert hv
  unfold World.advance
  split
  · intro hv
    obtain rfl := hone hv
    exact .inr (held_watch hlen)
  · split_ifs with hshort hany
    · intro hv
      obtain rfl := hone hv
      omega
    · intro hv
      obtain rfl := hone hv
      obtain ⟨b,hb,hstring⟩ := List.any_eq_true.mp hany
      simp only [decide_eq_true_eq] at hstring
      have hlive : w.live b := live_of_string (by
        rw [hstring]
        rintro rfl
        exact hshort (by decide))
      refine .inr (.inl (List.mem_map.mpr ⟨b,hb,?_⟩))
      rw [← hstring,string_of_live hlive]
    · exact fun hv => (by cases hv)
  · exact fun hv => .inl hv
  · exact fun hv => .inl hv
  · exact fun _ => .inr (.inr rfl)
  · intro hv
    obtain hv | hv := List.mem_append.mp hv
    · exact .inl hv
    · obtain rfl := hone hv
      exact .inr (held_watch hlen)
  · split
    · exact fun hv => (by cases hv)
    · exact fun hv => (by cases hv)
  · exact fun hv => (by cases hv)
  · split_ifs
    · exact fun hv => (by cases hv)
    · exact fun hv => (by cases hv)
  · exact fun hv => .inl hv

/-- Other calls in the place of those there were, with no value that is neither held nor a reason to
withhold. -/
lemma Sound.retask (h : Sound w) {tasks : List Task}
    (htasks : ∀ t ∈ tasks, ∀ v ∈ t.asked, minScrubLen ≤ v.length →
    w.Asked v ∨ v ∈ w.words ∨ w.unarmed.isSome = true) : Sound { w with tasks := tasks } := by
  refine ⟨h.there,h.once,h.long,h.apart,h.order,?_⟩
  rintro v ⟨hlen,t,ht,hv⟩
  obtain hasked | hheld := htasks t ht v hv hlen
  · exact h.held v hasked
  · exact hheld

lemma buffer_wipe (bufs : List ℕ) (b : ℕ) :
    (step w (.wipe bufs)).buffer b = wipeAt bufs b (w.buffer b) := by
  simp only [World.buffer,step,List.getElem?_mapIdx]
  cases w.bufs[b]? with
  | none =>
    simp only [Option.map_none,Option.getD_none,wipeAt]
    split_ifs <;> rfl
  | some _ => rfl

lemma bytes_wipe (bufs : List ℕ) (b : ℕ) :
    ((step w (.wipe bufs)).buffer b).bytes = (w.buffer b).bytes := by
  rw [buffer_wipe,wipeAt]
  split_ifs <;> rfl

lemma live_wipe (bufs : List ℕ) (b : ℕ) (h : (step w (.wipe bufs)).live b) : w.live b := by
  rw [World.live,buffer_wipe,wipeAt] at h
  split_ifs at h
  exact h

lemma Sound.step (h : Sound w) (a : Act) : Sound (step w a) := by
  cases a with
  | call c =>
    refine h.retask (fun t ht v hv hlen => ?_)
    obtain ht | rfl := List.mem_append.mp ht |>.imp_right List.mem_singleton.mp
    · exact .inl ⟨hlen,t,ht,hv⟩
    · cases c <;> cases hv
  | advance i env =>
    simp only [Credentials.step]
    cases ht : w.tasks[i]? with
    | none => exact h
    | some t =>
      refine (h.advance env t).retask (fun t' ht' v hv hlen => ?_)
      have hasked : ∀ t' ∈ w.tasks, v ∈ t'.asked → (w.advance env t).1.Asked v := by
        intro t' ht' hv
        exact ⟨hlen,t',by rw [tasks_advance]; exact ht',hv⟩
      obtain ht' | rfl := List.mem_or_eq_of_mem_set ht'
      · rw [tasks_advance] at ht'
        exact .inl (hasked t' ht' hv)
      · obtain hold | hheld := asked_advance w env t hv hlen
        · exact .inl (hasked t (List.mem_of_getElem? ht) hold)
        · exact .inr hheld
  | wipe bufs =>
    have hbytes : ∀ b, ((Credentials.step w (.wipe bufs)).buffer b).bytes =
      (w.buffer b).bytes := bytes_wipe bufs
    have hlive : ∀ b, (Credentials.step w (.wipe bufs)).live b → w.live b := live_wipe bufs
    refine ⟨?_,h.once,?_,?_,?_,?_⟩
    · intro b hb
      simpa [Credentials.step] using h.there b hb
    · intro b hb
      rw [hbytes]
      exact h.long b hb
    · intro a ha b hb hla hlb
      rw [hbytes,hbytes]
      exact h.apart a ha b hb (hlive a hla) (hlive b hlb)
    · refine h.order.imp (fun hab hla hlb => ?_)
      rw [hbytes,hbytes]
      exact hab (hlive _ hla) (hlive _ hlb)
    · intro v hv
      refine (h.held v hv).imp_left (fun hmem => ?_)
      obtain ⟨b,hb,rfl⟩ := List.mem_map.mp hmem
      exact List.mem_map.mpr ⟨b,hb,hbytes b⟩

lemma grows_step (w : World) (a : Act) : Grows w (step w a) := by
  cases a with
  | call c => exact ⟨le_rfl,fun _ _ => rfl,fun _ _ h => h,fun _ h => h,fun _ h => h⟩
  | advance i env =>
    simp only [step]
    cases w.tasks[i]? with
    | none => exact Grows.refl w
    | some t =>
      have h := grows_advance w env t
      exact ⟨h.bufs,h.bytes,h.live,h.values,h.unarmed⟩
  | wipe bufs =>
    exact ⟨by simp [step],fun b _ => bytes_wipe bufs b,fun b _ => live_wipe bufs b,fun _ h => h,
      fun _ h => h⟩

lemma sound_foldl (h : Sound w) (acts : List Act) : Sound (acts.foldl step w) := by
  induction acts generalizing w with
  | nil => exact h
  | cons a acts ih => exact ih (h.step a)

lemma sound_after (acts : List Act) : Sound (after acts) := sound_foldl sound_new acts

lemma grows_foldl (w : World) (acts : List Act) : Grows w (acts.foldl step w) := by
  induction acts generalizing w with
  | nil => exact Grows.refl w
  | cons a acts ih => exact (grows_step w a).trans (ih _)

end sound
end Manvi.Credentials
