import Manvi.Encoding.Space

/-! The sub-agents of a harness: their states, the table that lists them and what a kill does, over
every interleaving of the locked sections. -/
namespace Manvi.Agents
open Manvi.Encoding

inductive State
  | running
  | canceling
  | completed
  | errored
  | other (name : String)
deriving DecidableEq

def transitions : State → List State
  | .running => [.canceling,.completed,.errored]
  | .canceling => [.errored]
  | _ => []

def terminal (s : State) : Bool := s = .completed || s = .errored

def canTransition (src dst : State) : Bool :=
  src = dst || (transitions src).any (fun allowed => allowed = dst)

/-- A sub-agent, and as history how often a kill of it succeeded and how often its cancellation was
called. -/
structure Instance where
  conversationID : Bytes
  state : State
  stateDetail : String
  cancel : Bool
  kills : ℕ
  cancels : ℕ

/-- A lifecycle move, refused where the machine does not allow it. -/
def Instance.setState (inst : Instance) (state : State) (detail : String) : Option Instance :=
  if canTransition inst.state state then some { inst with state := state, stateDetail := detail }
    else none

inductive KillError
  | alreadyReached (state : State)
  | beingTerminated
  | noHandle

/-- The locked part of a kill; the cancellation is called after it. -/
def Instance.kill (inst : Instance) : Except KillError Instance :=
  if terminal inst.state then .error (.alreadyReached inst.state)
  else if inst.state = .canceling then .error .beingTerminated
  else if !inst.cancel then .error .noHandle
  else .ok { inst with
    state := .canceling, stateDetail := "terminated by the control plane", kills := inst.kills+1 }

def maxRetainedFinished : ℕ := 128

/-- How far the registration that holds the table's lock has pruned: it counts the finished, then
sweeps. -/
inductive Phase
  | count (keep : Bytes) (rest : List Bytes) (finished : ℕ)
  | sweep (keep : Bytes) (rest : List Bytes) (finished : ℕ) (kept : List Bytes)

/-- The instances by where they are, the table with its order and the registration under way, the
kills whose cancellation is still to be called, and as history the instance registered last under an
id. -/
structure World (ι : Type) where
  heap : ι → Instance
  instances : Bytes → Option ι
  order : List Bytes
  phase : Option Phase
  pending : List ι
  latest : Bytes → Option ι
  panicked : Bool

inductive Act (ι : Type)
  | setState (i : ι) (state : State) (detail : String)
  | register (i : Option ι)
  | prune
  | kill (i : ι)
  | cancel (i : ι)

variable {ι : Type} [DecidableEq ι]

/-- The registration takes the lock and enters the instance; an instance that could not be named or
killed is refused. -/
def register (w : World ι) (i : ι) : World ι :=
  let inst := w.heap i
  let id := inst.conversationID
  if trimSpace id = [] ∨ inst.cancel = false then w
  else
    let order := if (w.instances id).isSome then w.order else w.order ++ [id]
    { w with
      order := order
      instances := Function.update w.instances id (some i)
      latest := Function.update w.latest id (some i)
      phase := some (.count id order 0) }

/-- The finished state of a listed id, or none where the table has no instance for it. -/
def finishedNow (w : World ι) (keep id : Bytes) : Option Bool :=
  if id = keep then some false else (w.instances id).map (fun i => terminal (w.heap i).state)

/-- One id of the pass over the order. -/
def prune (w : World ι) : World ι :=
  match w.phase with
  | none => w
  | some (.count keep [] finished) => { w with phase := some (.sweep keep w.order finished []) }
  | some (.count keep (id :: rest) finished) =>
    match finishedNow w keep id with
    | none => { w with panicked := true }
    | some true => { w with phase := some (.count keep rest (finished+1)) }
    | some false => { w with phase := some (.count keep rest finished) }
  | some (.sweep _ [] _ kept) => { w with order := kept, phase := none }
  | some (.sweep keep (id :: rest) finished kept) =>
    if finished ≤ maxRetainedFinished then
      { w with phase := some (.sweep keep rest finished (kept ++ [id])) }
    else match finishedNow w keep id with
      | none => { w with panicked := true }
      | some true => { w with
        instances := Function.update w.instances id none,
        phase := some (.sweep keep rest (finished-1) kept) }
      | some false => { w with phase := some (.sweep keep rest finished (kept ++ [id])) }

def step (w : World ι) : Act ι → World ι
  | .setState i state detail => match (w.heap i).setState state detail with
    | some inst => { w with heap := Function.update w.heap i inst }
    | none => w
  -- a registration waits for the lock that another one holds
  | .register i => match i,w.phase with
    | some i,none => register w i
    | _,_ => w
  | .prune => prune w
  | .kill i => match (w.heap i).kill with
    | .ok inst => { w with heap := Function.update w.heap i inst, pending := i :: w.pending }
    | .error _ => w
  | .cancel i => if w.pending.contains i then
      { w with
        heap := Function.update w.heap i { w.heap i with cancels := (w.heap i).cancels+1 },
        pending := w.pending.erase i }
    else w

/-- The ids that are listed: during a sweep, those kept and those not yet looked at. -/
def listed (w : World ι) : List Bytes :=
  match w.phase with
  | some (.sweep _ rest _ kept) => kept ++ rest
  | _ => w.order

/-- The instances are as they were made, and the table is empty. -/
structure Start (w : World ι) : Prop where
  instances : ∀ id, w.instances id = none
  order : w.order = []
  phase : w.phase = none
  pending : w.pending = []
  latest : ∀ id, w.latest id = none
  panicked : w.panicked = false
  kills : ∀ i, (w.heap i).kills = 0
  cancels : ∀ i, (w.heap i).cancels = 0

/-- What holds of a sub-agent: one kill at most, one cancellation for it, and never a completion
after it. -/
structure Account (pending : ℕ) (inst : Instance) : Prop where
  calls : inst.kills = inst.cancels+pending
  once : inst.kills ≤ 1
  stopped : inst.kills = 1 → inst.state = .canceling ∨ inst.state = .errored

/-- What holds at every moment of a run. -/
structure Inv (w : World ι) : Prop where
  nodup : (listed w).Nodup
  mem : ∀ id, id ∈ listed w ↔ (w.instances id).isSome
  rest : ∀ keep rest finished, w.phase = some (.count keep rest finished) → ∀ id ∈ rest,
    id ∈ w.order
  latest : ∀ id i, w.instances id = some i → w.latest id = some i
  live : ∀ id i, w.latest id = some i → w.instances id = some i ∨
    (w.instances id = none ∧ terminal (w.heap i).state = true)
  named : ∀ id i, w.instances id = some i → (w.heap i).conversationID = id ∧
    (w.heap i).cancel = true
  account : ∀ i, Account (w.pending.count i) (w.heap i)
  panicked : w.panicked = false

section heap
variable {w : World ι}

lemma canTransition_terminal {src dst : State} (hsrc : terminal src = true)
    (h : canTransition src dst = true) : dst = src := by
  unfold canTransition transitions at h
  cases src with
  | completed => exact Eq.symm (by simpa using h)
  | errored => exact Eq.symm (by simpa using h)
  | running => cases hsrc
  | canceling => cases hsrc
  | other name => cases hsrc

lemma canTransition_canceling {dst : State} (h : canTransition .canceling dst = true) :
    dst = .canceling ∨ dst = .errored := by
  unfold canTransition transitions at h
  have hor : State.canceling = dst ∨ State.errored = dst := by simpa using h
  exact hor.imp Eq.symm Eq.symm

/-- A change of one instance that keeps its name and handle, and its state once it is final, keeps
the table right. -/
lemma Inv.heap (h : Inv w) {i : ι} {inst : Instance} {pending : List ι}
    (hid : inst.conversationID = (w.heap i).conversationID)
    (hcancel : inst.cancel = (w.heap i).cancel)
    (hfinal : terminal (w.heap i).state = true → inst.state = (w.heap i).state)
    (haccount : Account (pending.count i) inst)
    (hothers : ∀ j, j ≠ i → pending.count j = w.pending.count j) :
    Inv { w with heap := Function.update w.heap i inst, pending := pending } := by
  refine ⟨h.nodup,h.mem,h.rest,h.latest,fun id j hj => ?_,fun id j hj => ?_,fun j => ?_,h.panicked⟩
  · refine (h.live id j hj).imp_right (fun hgone => ⟨hgone.1,?_⟩)
    by_cases heq : j = i
    · subst heq
      dsimp only
      rw [Function.update_self,hfinal hgone.2]
      exact hgone.2
    · dsimp only
      rw [Function.update_of_ne heq]
      exact hgone.2
  · dsimp only
    by_cases heq : j = i
    · subst heq
      rw [Function.update_self,hid,hcancel]
      exact h.named id j hj
    · rw [Function.update_of_ne heq]
      exact h.named id j hj
  · dsimp only
    by_cases heq : j = i
    · subst heq
      rw [Function.update_self]
      exact haccount
    · rw [Function.update_of_ne heq,hothers j heq]
      exact h.account j

lemma Inv.setState (h : Inv w) {i : ι} {state : State} {detail : String} {inst : Instance}
    (hset : (w.heap i).setState state detail = some inst) :
    Inv { w with heap := Function.update w.heap i inst } := by
  unfold Instance.setState at hset
  split at hset
  · rename_i hcan
    cases hset
    refine h.heap rfl rfl (fun hfinal => canTransition_terminal hfinal hcan) ⟨(h.account i).calls,
      (h.account i).once,fun hkilled => ?_⟩ (fun _ _ => rfl)
    obtain hstate | hstate := (h.account i).stopped hkilled
    · rw [hstate] at hcan
      exact canTransition_canceling hcan
    · rw [hstate] at hcan
      exact Or.inr (canTransition_terminal rfl hcan)
  · cases hset

lemma kill_ok {inst inst' : Instance} (h : inst.kill = .ok inst') :
    terminal inst.state = false ∧ inst.state ≠ .canceling ∧ inst' = { inst with
      state := .canceling, stateDetail := "terminated by the control plane", kills :=
        inst.kills+1 } := by
  unfold Instance.kill at h
  split at h
  · cases h
  split at h
  · cases h
  split at h
  · cases h
  · rename_i hlive hcanceling _
    cases h
    exact ⟨by simpa using hlive,hcanceling,rfl⟩

lemma Inv.kill (h : Inv w) {i : ι} {inst : Instance} (hkill : (w.heap i).kill = .ok inst) :
    Inv { w with heap := Function.update w.heap i inst, pending := i :: w.pending } := by
  obtain ⟨hlive,hcanceling,rfl⟩ := kill_ok hkill
  have hfirst : (w.heap i).kills = 0 := by
    have honce := (h.account i).once
    by_contra hne
    obtain hstate | hstate := (h.account i).stopped (by omega)
    · exact hcanceling hstate
    · rw [hstate] at hlive
      cases hlive
  refine h.heap rfl rfl (fun hfinal => ?_) ⟨?_,?_,fun _ => Or.inl rfl⟩ (fun j hj => ?_)
  · rw [hlive] at hfinal
    cases hfinal
  · have hcalls := (h.account i).calls
    dsimp only
    rw [List.count_cons_self]
    omega
  · dsimp only
    omega
  · rw [List.count_cons_of_ne (fun heq => hj (Eq.symm heq))]

lemma Inv.cancel (h : Inv w) {i : ι} (hin : w.pending.contains i = true) :
    Inv { w with
      heap := Function.update w.heap i { w.heap i with cancels := (w.heap i).cancels+1 },
      pending := w.pending.erase i } := by
  have hpos : 0 < w.pending.count i := List.count_pos_iff.mpr (by simpa using hin)
  refine h.heap rfl rfl (fun _ => rfl) ⟨?_,(h.account i).once,
    (h.account i).stopped⟩ (fun j hj => ?_)
  · have hcalls := (h.account i).calls
    dsimp only
    rw [List.count_erase_self]
    omega
  · rw [List.count_erase_of_ne hj]

end heap

section table
variable {w : World ι}

lemma Inv.register (h : Inv w) (hphase : w.phase = none) (i : ι) : Inv (register w i) := by
  unfold Agents.register
  dsimp only
  split
  · exact h
  rename_i hok
  rw [not_or,Bool.not_eq_false] at hok
  generalize hid : (w.heap i).conversationID = id at hok ⊢
  have hlisted : listed w = w.order := by
    unfold listed
    rw [hphase]
  have hnodup := h.nodup
  have hmem := h.mem
  rw [hlisted] at hnodup hmem
  refine ⟨?_,fun x => ?_,?_,fun x j hj => ?_,fun x j hj => ?_,fun x j hj => ?_,h.account,h.panicked⟩
  · change (if (w.instances id).isSome then w.order else w.order ++ [id]).Nodup
    split
    · exact hnodup
    · rename_i hnew
      refine List.nodup_append.mpr ⟨hnodup,List.nodup_singleton id,fun a ha b hb hab => hnew ?_⟩
      rw [← hmem id,← List.mem_singleton.mp hb,← hab]
      exact ha
  · change x ∈ (if (w.instances id).isSome then w.order else w.order ++ [id]) ↔ _
    dsimp only
    by_cases hx : x = id
    · subst hx
      rw [Function.update_self]
      refine ⟨fun _ => rfl,fun _ => ?_⟩
      split
      · rename_i hold
        exact (hmem x).mpr hold
      · simp
    · rw [Function.update_of_ne hx,← hmem x]
      split
      · rfl
      · simp [hx]
  · intro keep rest finished heq x hx
    cases heq
    exact hx
  · dsimp only at hj ⊢
    by_cases hx : x = id
    · rw [hx,Function.update_self] at hj ⊢
      exact hj
    · rw [Function.update_of_ne hx] at hj ⊢
      exact h.latest x j hj
  · dsimp only at hj ⊢
    by_cases hx : x = id
    · rw [hx,Function.update_self] at hj ⊢
      exact Or.inl hj
    · rw [Function.update_of_ne hx] at hj ⊢
      exact h.live x j hj
  · dsimp only at hj ⊢
    by_cases hx : x = id
    · rw [hx,Function.update_self] at hj
      cases hj
      exact ⟨hid.trans hx.symm,hok.2⟩
    · rw [Function.update_of_ne hx] at hj
      exact h.named x j hj

/-- A listed id has an instance to look at. -/
lemma finishedNow_some (h : Inv w) {keep id : Bytes} (hid : id ∈ listed w) :
    ∃ b, finishedNow w keep id = some b := by
  unfold finishedNow
  split
  · exact ⟨false,rfl⟩
  · obtain ⟨i,hi⟩ := Option.isSome_iff_exists.mp ((h.mem id).mp hid)
    rw [hi]
    exact ⟨_,rfl⟩

/-- Only the phase moves on, with the same ids listed. -/
lemma Inv.phase (h : Inv w) {phase : Option Phase}
    (hlisted : listed { w with phase := phase } = listed w)
    (hrest : ∀ keep rest finished, phase = some (.count keep rest finished) → ∀ id ∈ rest,
      id ∈ w.order) : Inv { w with phase := phase } := by
  refine ⟨?_,fun id => ?_,hrest,h.latest,h.live,h.named,h.account,h.panicked⟩
  · rw [hlisted]
    exact h.nodup
  · rw [hlisted]
    exact h.mem id

/-- An id is taken out only where its instance is finished. -/
lemma Inv.delete (h : Inv w) {keep id : Bytes} {rest kept : List Bytes} {finished : ℕ}
    (hphase : w.phase = some (.sweep keep (id :: rest) finished kept))
    (hfinished : finishedNow w keep id = some true) (left : ℕ) :
    Inv { w with
      instances := Function.update w.instances id none,
      phase := some (.sweep keep rest left kept) } := by
  have hlisted : listed w = kept ++ id :: rest := by
    unfold listed
    rw [hphase]
  have hnodup := h.nodup
  have hmem := h.mem
  rw [hlisted] at hnodup hmem
  have hperm : (kept ++ id :: rest).Perm (id :: (kept ++ rest)) := List.perm_middle
  obtain ⟨hnew,hrest⟩ := List.nodup_cons.mp (hperm.nodup_iff.mp hnodup)
  refine ⟨hrest,fun x => ?_,fun _ _ _ heq => (by cases heq),fun x j hj => ?_,fun x j hj => ?_,
    fun x j hj => ?_,h.account,h.panicked⟩
  · change x ∈ kept ++ rest ↔ _
    dsimp only
    by_cases hx : x = id
    · subst hx
      rw [Function.update_self]
      exact ⟨fun hin => absurd hin hnew,fun hin => (by cases hin)⟩
    · rw [Function.update_of_ne hx,← hmem x,hperm.mem_iff,List.mem_cons]
      exact ⟨Or.inr,fun hin => hin.resolve_left hx⟩
  · dsimp only at hj
    by_cases hx : x = id
    · rw [hx,Function.update_self] at hj
      cases hj
    · rw [Function.update_of_ne hx] at hj
      exact h.latest x j hj
  · dsimp only at hj ⊢
    by_cases hx : x = id
    · subst hx
      rw [Function.update_self]
      refine Or.inr ⟨rfl,?_⟩
      unfold finishedNow at hfinished
      split at hfinished
      · cases hfinished
      · obtain ⟨i,hi,hterminal⟩ := Option.map_eq_some_iff.mp hfinished
        rw [h.latest x i hi] at hj
        cases hj
        exact hterminal
    · rw [Function.update_of_ne hx]
      exact h.live x j hj
  · dsimp only at hj
    by_cases hx : x = id
    · rw [hx,Function.update_self] at hj
      cases hj
    · rw [Function.update_of_ne hx] at hj
      exact h.named x j hj

lemma Inv.prune (h : Inv w) : Inv (prune w) := by
  unfold Agents.prune
  split
  · exact h
  · rename_i keep finished hphase
    exact h.phase (by simp [listed,hphase]) (fun _ _ _ heq => (by cases heq))
  · rename_i keep id rest finished hphase
    have hlisted : listed w = w.order := by
      unfold listed
      rw [hphase]
    have hin := h.rest keep (id :: rest) finished hphase
    have hcount : ∀ n, Inv { w with phase := some (.count keep rest n) } := by
      intro n
      refine h.phase hlisted.symm (fun _ _ _ heq => ?_)
      cases heq
      exact fun x hx => hin x (List.mem_cons_of_mem _ hx)
    obtain ⟨b,hb⟩ := @finishedNow_some _ _ w h keep id (hlisted ▸ hin id List.mem_cons_self)
    rw [hb]
    cases b with
    | true => exact hcount _
    | false => exact hcount _
  · rename_i keep finished kept hphase
    have hlisted : listed w = kept := by
      unfold listed
      rw [hphase]
      exact List.append_nil kept
    refine ⟨?_,fun x => ?_,fun _ _ _ heq => (by cases heq),h.latest,h.live,h.named,h.account,
      h.panicked⟩
    · exact hlisted ▸ h.nodup
    · exact hlisted ▸ h.mem x
  · rename_i keep id rest finished kept hphase
    have hlisted : listed w = kept ++ id :: rest := by
      unfold listed
      rw [hphase]
    have hkeep : Inv { w with phase := some (.sweep keep rest finished (kept ++ [id])) } := by
      refine h.phase ?_ (fun _ _ _ heq => (by cases heq))
      rw [hlisted]
      exact (List.append_cons kept id rest).symm
    split
    · exact hkeep
    · obtain ⟨b,hb⟩ := @finishedNow_some _ _ w h keep id (by rw [hlisted]; simp)
      rw [hb]
      cases b with
      | true => exact h.delete hphase hb _
      | false => exact hkeep

end table

lemma Inv.step {w : World ι} (h : Inv w) (a : Act ι) : Inv (step w a) := by
  cases a with
  | setState i state detail =>
    unfold Agents.step
    dsimp only
    split
    · rename_i inst hset
      exact h.setState hset
    · exact h
  | register i =>
    unfold Agents.step
    dsimp only
    split
    · rename_i i hphase
      exact h.register hphase i
    · exact h
  | prune => exact h.prune
  | kill i =>
    unfold Agents.step
    dsimp only
    split
    · rename_i inst hkill
      exact h.kill hkill
    · exact h
  | cancel i =>
    unfold Agents.step
    dsimp only
    split
    · rename_i hin
      exact h.cancel hin
    · exact h

lemma Start.inv {w : World ι} (h : Start w) : Inv w := by
  have hlisted : listed w = [] := by
    unfold listed
    rw [h.phase]
    exact h.order
  refine ⟨?_,fun id => ?_,fun _ _ _ heq => ?_,fun id i hi => ?_,fun id i hi => ?_,fun id i hi => ?_,
    fun i => ?_,h.panicked⟩
  · rw [hlisted]
    exact List.nodup_nil
  · rw [hlisted,h.instances id]
    simp
  · rw [h.phase] at heq
    cases heq
  · rw [h.instances id] at hi
    cases hi
  · rw [h.latest id] at hi
    cases hi
  · rw [h.instances id] at hi
    cases hi
  · refine ⟨?_,?_,fun hkilled => ?_⟩
    · rw [h.kills i,h.cancels i,h.pending]
      rfl
    · rw [h.kills i]
      exact Nat.zero_le 1
    · rw [h.kills i] at hkilled
      cases hkilled

lemma Inv.run {w : World ι} (h : Inv w) (acts : List (Act ι)) : Inv (acts.foldl Agents.step w) := by
  induction acts generalizing w with
  | nil => exact h
  | cons a acts ih => exact ih (h.step a)

/-- What was final stays as it is. -/
lemma final_step {w : World ι} (a : Act ι) {i : ι} (hfinal : terminal (w.heap i).state = true) :
    ((step w a).heap i).state = (w.heap i).state := by
  cases a with
  | setState j state detail =>
    unfold step Instance.setState
    dsimp only
    by_cases hcan : canTransition (w.heap j).state state = true
    · rw [if_pos hcan]
      dsimp only
      by_cases hij : i = j
      · subst hij
        rw [Function.update_self]
        exact canTransition_terminal hfinal hcan
      · rw [Function.update_of_ne hij]
    · rw [if_neg hcan]
  | register j =>
    unfold step register
    dsimp only
    split
    · split
      · rfl
      · rfl
    · rfl
  | prune =>
    change ((prune w).heap i).state = _
    have hheap : (prune w).heap = w.heap := by
      unfold prune
      repeat' split
      all_goals rfl
    rw [hheap]
  | kill j =>
    unfold step
    dsimp only
    split
    · rename_i inst hkill
      dsimp only
      by_cases hij : i = j
      · subst hij
        rw [(kill_ok hkill).1] at hfinal
        cases hfinal
      · rw [Function.update_of_ne hij]
    · rfl
  | cancel j =>
    unfold step
    dsimp only
    split
    · dsimp only
      by_cases hij : i = j
      · subst hij
        rw [Function.update_self]
      · rw [Function.update_of_ne hij]
    · rfl

lemma final_run {w : World ι} (acts : List (Act ι)) {i : ι}
    (hfinal : terminal (w.heap i).state = true) :
    ((acts.foldl step w).heap i).state = (w.heap i).state := by
  induction acts generalizing w with
  | nil => rfl
  | cons a acts ih =>
    have hone := final_step a hfinal
    rw [List.foldl_cons,ih (by rw [hone]; exact hfinal),hone]

/-- Over every interleaving of state reports, registrations with their pruning, kills and the
cancellations that follow them: the instance registered last under an id is listed under it until it
has finished; a kill of an instance succeeds at most once, its cancellation is called once for it,
and the instance never completes afterwards; no pass over the table meets an id without an instance;
and a final state stays. -/
theorem instances_hold {w : World ι} (hw : Start w) (acts : List (Act ι)) :
    (∀ id i, (acts.foldl step w).latest id = some i → terminal ((acts.foldl step w).heap i).state =
      false → (acts.foldl step w).instances id = some i ∧ id ∈ listed (acts.foldl step w))
      ∧ (∀ i, Account ((acts.foldl step w).pending.count i) ((acts.foldl step w).heap i))
      ∧ (acts.foldl step w).panicked = false
      ∧ ∀ (more : List (Act ι)) (i : ι), terminal ((acts.foldl step w).heap i).state = true →
      ((more.foldl step (acts.foldl step w)).heap i).state =
      ((acts.foldl step w).heap i).state := by
  have hinv := hw.inv.run acts
  refine ⟨fun id i hlatest hlive => ?_,hinv.account,hinv.panicked,
    fun more i hfinal => final_run more hfinal⟩
  obtain hin | ⟨-,hfinal⟩ := hinv.live id i hlatest
  · refine ⟨hin,(hinv.mem id).mpr ?_⟩
    rw [hin]
    rfl
  · rw [hlive] at hfinal
    cases hfinal

/-- A table with nothing in it, over instances that are all running. -/
def fresh : World ℕ := ⟨fun i => ⟨[i.toUInt8],.running,"",true,0,0⟩,fun _ => none,[],none,[],
    fun _ => none,false⟩

theorem instances_hold_killed : Start fresh
    ∧ Account (([Act.register (some 1),.prune,.prune,.prune,.prune,.kill 1,
      .cancel 1].foldl step fresh).pending.count 1)
        (([Act.register (some 1),.prune,.prune,.prune,.prune,.kill 1,
          .cancel 1].foldl step fresh).heap 1) := by
  have hstart : Start fresh := ⟨fun _ => rfl,rfl,rfl,rfl,fun _ => rfl,rfl,fun _ => rfl,fun _ => rfl⟩
  exact ⟨hstart,(instances_hold hstart [Act.register (some 1),.prune,.prune,.prune,.prune,.kill 1,
    .cancel 1]).2.1 1⟩

end Manvi.Agents
