import Manvi.Session.Compacted

/-! Dropping whole turns off the front of a log so that its encoding fits a byte budget. -/
namespace Manvi.Session
open Manvi.Encoding Manvi.LLM

/-- The events a save writes: everything but stream chunks. -/
def Log.persistable (l : Log) : List Event := l.events.filter (fun e => e.type ≠ .assistantChunk)

/-- The byte length of the array of the encoded elements. -/
def arrayLen (elements : List (List UInt8)) : ℕ :=
  2+(elements.map List.length).sum+(elements.length-1)

def countTurns (events : List Event) : ℕ := events.countP (fun e => e.type = .turnStart)

/-- Pull a turn's start back over the prompt-assembly records directly before it, but not into
the turn that starts at last. -/
def pullBack (events : List Event) (last : Option ℕ) : ℕ → ℕ
  | 0 => 0
  | start+1 =>
    if (events[start]?.any (fun e => e.type = .promptAssembled)) ∧
      last.all (fun s => s+1 ≤ start) then
      pullBack events last start
    else start+1

/-- Where the turns start. -/
def turnStarts (events : List Event) : List ℕ :=
  (List.range events.length).foldl (fun starts i =>
    if events[i]?.any (fun e => e.type = .turnStart) then starts ++
      [pullBack events starts.getLast? i]
    else starts) []

/-- Drop groups while the total is over the bound and a later group is left. -/
def dropGroups (perEvent : List (List UInt8)) (maxBytes : ℤ) : ℤ → ℕ → ℕ → List ℕ → ℤ × ℕ × ℕ
  | total,groups,start,[] => (total,groups,start)
  | total,groups,start,next :: rest =>
    if total > maxBytes then
      let freed : ℕ := (((perEvent.drop start).take (next-start)).map (fun e => e.length+1)).sum
      dropGroups perEvent maxBytes (total-freed) (groups+1) next rest
    else (total,groups,start)

/-- The first event kept, how many turns were dropped, and whether the rest is still too long.
Events ahead of the first turn form a group that is dropped first and is no turn. -/
def trimEncoded (events : List Event) (perEvent : List (List UInt8)) (maxBytes : ℤ) :
    ℕ × ℕ × Bool :=
  let total : ℤ := arrayLen perEvent
  if total ≤ maxBytes then (0,0,false)
  else
    let starts := turnStarts events
    let leading := starts.head?.any (fun s => 0 < s)
    match (if leading then 0 :: starts else starts) with
    | [] => (0,0,true)
    | first :: rest =>
      let r := dropGroups perEvent maxBytes total 0 first rest
      (r.2.2,if leading ∧ 0 < r.2.1 then r.2.1-1 else r.2.1,r.1 > maxBytes)

/-! Where a cut can fall. -/

/-- A turn starts here: prompt-assembly records, and then its turn/start. -/
def TurnBoundary (kept : List Event) : Prop :=
  ∃ prompts ts rest, kept = prompts ++ ts :: rest ∧ ts.type = .turnStart ∧
    ∀ e ∈ prompts, e.type = .promptAssembled

lemma pullBack_le (events : List Event) (last : Option ℕ) (i : ℕ) : pullBack events last i ≤ i := by
  induction i with
  | zero => exact le_refl 0
  | succ i ih =>
    unfold pullBack
    split_ifs
    · omega
    · exact le_refl _

lemma pullBack_between (events : List Event) (last : Option ℕ) (i j : ℕ)
    (hlo : pullBack events last i ≤ j) (hhi : j < i) :
    ∃ e, events[j]? = some e ∧ e.type = .promptAssembled := by
  induction i with
  | zero => omega
  | succ i ih =>
    unfold pullBack at hlo
    split_ifs at hlo with hc
    · by_cases hj : j = i
      · subst hj
        obtain ⟨e,he,ht⟩ := (Option.any_eq_true _ _).mp hc.1
        exact ⟨e,he,by simpa using ht⟩
      · exact ih hlo (by omega)
    · omega

/-- The events from a start up to its turn/start are prompt-assembly records. -/
lemma take_eq_of_pullBack (events : List Event) (last : Option ℕ) {i : ℕ} (hi : i ≤ events.length) :
    ∃ prompts, events.take i = events.take (pullBack events last i) ++ prompts ∧
      (∀ e ∈ prompts, e.type = .promptAssembled) ∧
      events.drop (pullBack events last i) = prompts ++ events.drop i := by
  have hle := pullBack_le events last i
  refine ⟨(events.take i).drop (pullBack events last i),?_,?_,?_⟩
  · have h := List.take_append_drop (pullBack events last i) (events.take i)
    rw [List.take_take,min_eq_left hle] at h
    exact h.symm
  · intro e he
    obtain ⟨k,hk,hget⟩ := List.mem_iff_getElem.mp he
    have hlen : k < i-pullBack events last i := by
      simpa [List.length_drop,List.length_take,min_eq_left hi] using hk
    obtain ⟨e',he',ht⟩ := pullBack_between events last i (pullBack events last i+k) (by omega)
      (by omega)
    rw [List.getElem_drop,List.getElem_take] at hget
    obtain ⟨_,hget'⟩ := List.getElem?_eq_some_iff.mp he'
    rw [← hget,hget']
    exact ht
  · have h : (events.take i ++ events.drop i).drop (pullBack events last i) =
        (events.take i).drop (pullBack events last i) ++ events.drop i :=
      List.drop_append_of_le_length (by simp; omega)
    rw [List.take_append_drop] at h
    exact h

@[simp] lemma countTurns_append (a b : List Event) :
    countTurns (a ++ b) = countTurns a+countTurns b := by
  simp [countTurns,List.countP_append]

lemma countTurns_prompts {prompts : List Event} (h : ∀ e ∈ prompts, e.type = .promptAssembled) :
    countTurns prompts = 0 := by
  apply List.countP_eq_zero.mpr
  intro e he
  simp [h e he]

/-- What the scan for turn starts knows after some events. -/
structure Scanned (events : List Event) (i : ℕ) (starts : List ℕ) : Prop where
  length : starts.length = countTurns (events.take i)
  counted : ∀ k s, starts[k]? = some s → countTurns (events.take s) = k
  boundary : ∀ s ∈ starts, TurnBoundary (events.drop s)

lemma scan_step {events : List Event} {i : ℕ} {starts : List ℕ} (hi : i < events.length)
    (h : Scanned events i starts) : Scanned events (i+1)
      (if events[i]?.any (fun e => e.type = .turnStart) then
        starts ++ [pullBack events starts.getLast? i] else starts) := by
  have hget : events[i]? = some events[i] := List.getElem?_eq_getElem hi
  have htake : events.take (i+1) = events.take i ++ [events[i]] := by
    rw [List.take_add_one,hget]
    rfl
  have hcount : countTurns [events[i]] = if events[i].type = .turnStart then 1 else 0 := by
    simp [countTurns,List.countP_cons]
  rw [hget]
  by_cases ht : events[i].type = .turnStart
  · obtain ⟨prompts,h1,h2,h3⟩ := take_eq_of_pullBack events starts.getLast? hi.le
    have hk : countTurns (events.take (pullBack events starts.getLast? i)) = starts.length := by
      rw [h.length,h1,countTurns_append,countTurns_prompts h2,Nat.add_zero]
    simp only [Option.any_some,ht,decide_true,if_true]
    refine ⟨?_,?_,?_⟩
    · rw [htake,countTurns_append,hcount,if_pos ht,← h.length]
      simp
    · intro k s hs
      by_cases hlt : k < starts.length
      · rw [List.getElem?_append_left hlt] at hs
        exact h.counted k s hs
      · rw [List.getElem?_append_right (by omega)] at hs
        obtain ⟨hb,hs⟩ := List.getElem?_eq_some_iff.mp hs
        have hkl : k = starts.length := by
          simp at hb
          omega
        simp at hs
        rw [← hs,hkl]
        exact hk
    · intro s hs
      rcases List.mem_append.mp hs with hs | hs
      · exact h.boundary s hs
      · rw [List.mem_singleton.mp hs,h3,List.drop_eq_getElem_cons hi]
        exact ⟨prompts,events[i],_,rfl,ht,h2⟩
  · simp only [Option.any_some,ht,decide_false,Bool.false_eq_true,if_false]
    refine ⟨?_,h.counted,h.boundary⟩
    rw [htake,countTurns_append,hcount,if_neg ht,h.length,Nat.add_zero]

/-- Every turn start is a boundary, with as many turns before it as starts before it. -/
theorem turnStarts_scanned (events : List Event) :
    Scanned events events.length (turnStarts events) := by
  have hrun : ∀ n ≤ events.length, Scanned events n ((List.range n).foldl (fun starts i =>
      if events[i]?.any (fun e => e.type = .turnStart) then
        starts ++ [pullBack events starts.getLast? i] else starts) []) := by
    intro n
    induction n with
    | zero =>
      intro _
      exact ⟨by simp [countTurns],by simp,by simp⟩
    | succ n ih =>
      intro hn
      rw [List.range_succ,List.foldl_append]
      exact scan_step (by omega) (ih (by omega))
  exact hrun events.length (le_refl _)

lemma dropGroups_spec (perEvent : List (List UInt8)) (maxBytes total : ℤ) (groups start : ℕ)
    (rest : List ℕ) : ∃ k, (start :: rest)[k]? = some
    (dropGroups perEvent maxBytes total groups start rest).2.2 ∧
      (dropGroups perEvent maxBytes total groups start rest).2.1 = groups+k := by
  induction rest generalizing total groups start with
  | nil => exact ⟨0,rfl,rfl⟩
  | cons next rest ih =>
    unfold dropGroups
    split_ifs with hover
    · obtain ⟨k,hk,hg⟩ := ih (total-((((perEvent.drop start).take (next-start)).map
        (fun e => e.length+1)).sum : ℕ)) (groups+1) next
      exact ⟨k+1,hk,by rw [hg]; omega⟩
    · exact ⟨0,rfl,rfl⟩

/-- A trim that drops events cuts at a turn boundary, and counts the turns it drops. -/
theorem trimEncoded_spec (events : List Event) (perEvent : List (List UInt8)) (maxBytes : ℤ) :
    countTurns (events.take (trimEncoded events perEvent maxBytes).1) =
        (trimEncoded events perEvent maxBytes).2.1 ∧
      (0 < (trimEncoded events perEvent maxBytes).1 →
        TurnBoundary (events.drop (trimEncoded events perEvent maxBytes).1)) := by
  have hscan := turnStarts_scanned events
  unfold trimEncoded
  dsimp only
  by_cases hfit : (arrayLen perEvent : ℤ) ≤ maxBytes
  · rw [if_pos hfit]
    exact ⟨by simp [countTurns],by simp⟩
  rw [if_neg hfit]
  generalize turnStarts events = starts at hscan
  cases starts with
  | nil => exact ⟨by simp [countTurns],by simp⟩
  | cons first rest =>
    by_cases hlead : 0 < first
    · simp only [List.head?_cons,Option.any_some,hlead,decide_true,if_true,true_and]
      obtain ⟨k,hk,hg⟩ := dropGroups_spec perEvent maxBytes (arrayLen perEvent) 0 0 (first :: rest)
      rw [hg,Nat.zero_add]
      cases k with
      | zero =>
        simp at hk
        rw [← hk]
        exact ⟨by simp [countTurns],by simp⟩
      | succ k =>
        rw [List.getElem?_cons_succ] at hk
        exact ⟨hscan.counted k _ hk,fun _ => hscan.boundary _ (List.mem_of_getElem? hk)⟩
    · simp only [List.head?_cons,Option.any_some,hlead,decide_false,Bool.false_eq_true,if_false,
        false_and]
      obtain ⟨k,hk,hg⟩ := dropGroups_spec perEvent maxBytes (arrayLen perEvent) 0 first rest
      rw [hg,Nat.zero_add]
      exact ⟨hscan.counted k _ hk,fun _ => hscan.boundary _ (List.mem_of_getElem? hk)⟩

/-! Loading what a trim keeps. -/

/-- Turn numbers never go back. -/
structure Log.Turned (l : Log) : Prop where
  ordered : l.events.Pairwise (fun a b => a.turn ≤ b.turn)
  bounded : ∀ e ∈ l.events, 0 ≤ e.turn ∧ e.turn ≤ l.turn
  nonneg : 0 ≤ l.turn

namespace Log.Turned
variable {l l' : Log}

lemma append {t : EventType} {payload : Payload} {e : Event} (hl : l.Turned)
    (h : l.append t payload = .ok (l',e)) : l'.Turned := by
  obtain ⟨raw,_,h⟩ := bind_ok h
  obtain ⟨_,_,h⟩ := bind_ok h
  obtain ⟨projected,_,h⟩ := bind_ok h
  cases h
  have hadv : l.turn ≤ (Log.advance t l.turn l.step).1 := by
    unfold Log.advance
    split <;> simp
  have hn := hl.nonneg
  refine ⟨?_,?_,hn.trans hadv⟩
  · rw [List.pairwise_append]
    refine ⟨hl.ordered,by simp,?_⟩
    intro a ha b hb
    rw [List.mem_singleton.mp hb]
    exact (hl.bounded a ha).2.trans hadv
  · intro a ha
    rcases List.mem_append.mp ha with ha | ha
    · exact ⟨(hl.bounded a ha).1,(hl.bounded a ha).2.trans hadv⟩
    · rw [List.mem_singleton.mp ha]
      exact ⟨hn.trans hadv,le_refl _⟩

lemma afterRead (hl : l.Turned) : l.afterRead.Turned := by
  unfold Log.afterRead Log.warm
  split_ifs
  · exact hl
  · cases rebuildProjection l.events with
    | ok p => exact ⟨hl.ordered,hl.bounded,hl.nonneg⟩
    | error e => exact hl

lemma after (hl : l.Turned) (c : Call) : (l.after c).Turned := by
  cases c with
  | append t payload =>
    simp only [Log.after]
    cases h : l.append t payload with
    | ok r => exact hl.append h
    | error e => exact hl
  | compactedCalls => exact hl
  | deriveMessages => exact hl.afterRead
  | compactedResults => exact hl.afterRead
  | holdsResults msgs => exact hl.afterRead
  | ignoredCompactions => exact hl.afterRead
  | resultSeqs keys => exact hl.afterRead
  | setScrubber scrub => exact ⟨hl.ordered,hl.bounded,hl.nonneg⟩
  | setSensitiveScrubber scrub => exact ⟨hl.ordered,hl.bounded,hl.nonneg⟩

lemma run (hl : l.Turned) (calls : List Call) : (l.run calls).Turned := by
  induction calls generalizing l with
  | nil => exact hl
  | cons c calls ih => exact ih (hl.after c)

end Log.Turned

lemma foldlM_checkRestored_turns {es : List Event} {r r' : Restoring}
    (h : es.foldlM checkRestored r = .ok r') : es.Pairwise (fun a b => a.turn ≤ b.turn) ∧
      (∀ e ∈ es, r.turn ≤ e.turn ∧ e.turn ≤ r'.turn) ∧ r.turn ≤ r'.turn := by
  induction es generalizing r with
  | nil =>
    cases h
    exact ⟨.nil,by simp,le_refl _⟩
  | cons e es ih =>
    rw [List.foldlM_cons] at h
    obtain ⟨r1,h1,h⟩ := bind_ok h
    obtain ⟨_,_,hle,rfl⟩ := checkRestored_ok h1
    obtain ⟨hp,hb,hle'⟩ := ih h
    refine ⟨.cons (fun a ha => (hb a ha).1) hp,?_,hle.trans hle'⟩
    intro a ha
    rcases List.mem_cons.mp ha with rfl | ha
    · exact ⟨hle,hle'⟩
    · exact ⟨hle.trans (hb a ha).1,(hb a ha).2⟩

lemma Log.Started.turned {l : Log} (h : l.Started) : l.Turned := by
  rcases h with rfl | ⟨events,h⟩
  · exact ⟨.nil,by simp [newLog],le_refl _⟩
  · obtain ⟨r,hr,h⟩ := bind_ok h
    obtain ⟨derived,hd,h⟩ := bind_ok h
    cases h
    obtain ⟨shared,hs,hd⟩ := bind_ok hd
    obtain ⟨copied,_,hd⟩ := bind_ok hd
    cases hd
    obtain ⟨w,hw,hs⟩ := bind_ok hs
    cases hs
    simp only [Log.warm,emptyProjection,Bool.false_eq_true,if_false] at hw
    obtain ⟨p,_,hw⟩ := bind_ok hw
    cases hw
    obtain ⟨hp,hb,hle⟩ := foldlM_checkRestored_turns hr
    exact ⟨hp,hb,hle⟩

/-- Events in order, each with a type, pass the check of a restore. -/
lemma checkRestored_accepts {es : List Event} (r : Restoring) (ht : ∀ e ∈ es, e.type.name ≠ "")
    (hs : es.Pairwise (fun a b => a.seq < b.seq)) (hs' : ∀ e ∈ es, r.last < e.seq)
    (hn : es.Pairwise (fun a b => a.turn ≤ b.turn)) (hn' : ∀ e ∈ es, r.turn ≤ e.turn) :
    ∃ r', es.foldlM checkRestored r = .ok r' := by
  induction es generalizing r with
  | nil => exact ⟨r,rfl⟩
  | cons e es ih =>
    obtain ⟨hs1,hs2⟩ := List.pairwise_cons.mp hs
    obtain ⟨hn1,hn2⟩ := List.pairwise_cons.mp hn
    have hstep : checkRestored r e = .ok ⟨r.index+1,e.seq,e.turn,e.step⟩ := by
      have h2 := hs' e (by simp)
      have h3 := hn' e (by simp)
      unfold checkRestored
      rw [if_neg (ht e (by simp)),if_neg (by omega),if_neg (by omega)]
    rw [List.foldlM_cons,hstep]
    exact ih _ (fun a ha => ht a (by simp [ha])) hs2 hs1 hn2 hn1

/-- Events in order that can be read are restored. -/
theorem restoreLog_accepts {es : List Event} {xs : List Entry} (ht : ∀ e ∈ es, e.type.name ≠ "")
    (hs : es.Pairwise (fun a b => a.seq < b.seq)) (hs' : ∀ e ∈ es, 0 < e.seq)
    (hn : es.Pairwise (fun a b => a.turn ≤ b.turn)) (hn' : ∀ e ∈ es, 0 ≤ e.turn)
    (hx : List.Forall₂ Entry.Reads es xs) :
    ∃ l, restoreLog es = .ok l ∧ l.events = es ∧ ∃ w, l.projected = .ok ((project xs).derived,
      w) := by
  obtain ⟨r,hr⟩ := checkRestored_accepts ⟨0,0,0,0⟩ ht hs hs' hn hn'
  have hm := cloneMessages_project hx
  have hrestore : restoreLog es = .ok ⟨es,r.turn,r.step,r.last,none,false,project xs⟩ := by
    simp only [restoreLog,hr]
    change (do let derived ← (⟨es,r.turn,r.step,r.last,none,false,
      emptyProjection⟩ : Log).deriveMessages; _) = _
    simp only [Log.deriveMessages,Log.projected,Log.warm,emptyProjection,Bool.false_eq_true,
      if_false,rebuildProjection_reads hx]
    change (do let derived ← (do let copied ← cloneMessages (project xs).derived; _); _) = _
    rw [hm]
    rfl
  refine ⟨_,hrestore,rfl,⟨es,r.turn,r.step,r.last,none,false,project xs⟩,?_⟩
  simp only [Log.projected,Log.warm,project_valid,if_true]
  rfl

end Manvi.Session
