import Manvi.Encoding.Space

/-! The frames that many callers write to a server's standard input: one at a time under a lock,
with a bound on each write. -/
namespace Manvi.Mcp
open Manvi.Encoding

inductive WriteStatus
  | running
  | written
  | failed
deriving DecidableEq

/-- A write that was started: how much of its frame was delivered, whether it still runs, and
whether its call returned without an error. -/
structure FrameWrite where
  frame : Bytes
  sent : ℕ
  status : WriteStatus
  told : Bool

def FrameWrite.part (w : FrameWrite) : Bytes := w.frame.take w.sent

/-- Nothing of the frame was delivered, or all of it. -/
def FrameWrite.Clean (w : FrameWrite) : Prop := w.sent = 0 ∨ w.sent = w.frame.length

/-- Where the call that holds the writer lock is: it waits for its write, or it gave up on it and
closes the connection. -/
inductive WriterStage
  | waiting
  | retiring

/-- The bytes that went through the pipe, the writes from the newest on, the call that holds the
lock, the latch of a write that was given up, and whether the pipe takes nothing more. -/
structure Stdin where
  received : Bytes
  writes : List FrameWrite
  stage : Option WriterStage
  wedged : Bool
  shut : Bool

/-- A call of writeFrame gets the lock; a write delivers some bytes more, returns, or fails; the
call that waits takes the result, or its bound passes and it latches; it has closed the connection;
and the pipe is closed at either end. -/
inductive WriterAct
  | enter (data : Bytes)
  | deliver (k n : ℕ)
  | finish (k : ℕ)
  | fail (k : ℕ)
  | collect
  | expire
  | retire
  | shut

def Stdin.init : Stdin := ⟨[],[],none,false,false⟩

def Stdin.step (s : Stdin) : WriterAct → Stdin
  | .enter data => match s.stage,s.wedged with
    | none,false => { s with writes := ⟨data,0,.running,false⟩ :: s.writes, stage := some .waiting }
    | _,_ => s
  | .deliver k n => match s.writes[k]? with
    | none => s
    | some w =>
      if w.status = .running ∧ s.shut = false ∧ w.sent+n ≤ w.frame.length then
        { s with
          received := s.received ++ (w.frame.drop w.sent).take n, writes := s.writes.set k { w with
            sent := w.sent+n } }
      else s
  | .finish k => match s.writes[k]? with
    | none => s
    | some w => if w.status = .running ∧ w.sent = w.frame.length then
      { s with writes := s.writes.set k { w with status := .written } } else s
  -- a write to a pipe fails inside its data only where the pipe takes nothing more
  | .fail k => match s.writes[k]? with
    | none => s
    | some w => if w.status = .running ∧ (w.sent = 0 ∨ w.sent = w.frame.length ∨ s.shut = true) then
      { s with writes := s.writes.set k { w with status := .failed } } else s
  | .collect => match s.stage,s.writes with
    | some .waiting,w :: rest => if w.status = .running then
      s else { s with writes := { w with told := w.status = .written } :: rest, stage := none }
    | _,_ => s
  | .expire => match s.stage with
    | some .waiting => { s with stage := some .retiring, wedged := true }
    | _ => s
  | .retire => match s.stage with
    | some .retiring => { s with stage := none, shut := true }
    | _ => s
  | .shut => { s with shut := true }

/-- The frames that were asked for, in the order of their writes. -/
def Stdin.issued (s : Stdin) : List Bytes := s.writes.reverse.map FrameWrite.frame

/-- The frames whose calls returned without an error. -/
def Stdin.acknowledged (s : Stdin) : List Bytes :=
  (s.writes.reverse.filter FrameWrite.told).map FrameWrite.frame

section invariant
variable {s : Stdin}

/-- What was received is what the writes delivered, in their order; only the newest write runs; and
behind a part that is not a whole frame nothing is delivered. -/
structure WriterInv (s : Stdin) : Prop where
  bytes : s.received = s.writes.reverse.flatMap FrameWrite.part
  within : ∀ w ∈ s.writes, w.sent ≤ w.frame.length
  older : ∀ w ∈ s.writes.tail, w.status ≠ .running
  settled : ∀ w ∈ s.writes, w.status ≠ .running → w.Clean ∨ s.shut = true
  free : s.stage = none → s.wedged = false → ∀ w ∈ s.writes, w.status ≠ .running
  written : ∀ w ∈ s.writes, w.status = .written → w.sent = w.frame.length
  told : ∀ w ∈ s.writes, w.told = true → w.status = .written
  latched : s.stage = some .retiring → s.wedged = true
  order : s.writes.Pairwise (fun later earlier => earlier.Clean ∨ later.sent = 0)

lemma WriterInv.init : WriterInv Stdin.init := by
  refine ⟨rfl,?_,?_,?_,?_,?_,?_,?_,List.Pairwise.nil⟩
  all_goals
    intros
    contradiction

/-- A write that runs is the newest. -/
lemma WriterInv.newest (h : WriterInv s) {k : ℕ} {w : FrameWrite} (hk : s.writes[k]? = some w)
    (hw : w.status = .running) : ∃ rest, s.writes = w :: rest ∧ k = 0 := by
  cases hwrites : s.writes with
  | nil =>
    rw [hwrites] at hk
    cases hk
  | cons x rest =>
    rw [hwrites] at hk
    cases k with
    | zero =>
      cases hk
      exact ⟨rest,rfl,rfl⟩
    | succ k =>
      have hin : w ∈ s.writes.tail := by
        rw [hwrites]
        exact List.mem_of_getElem? hk
      exact absurd hw (h.older w hin)

/-- The newest write changes, with what it delivered. -/
lemma WriterInv.set (h : WriterInv s) {w w' : FrameWrite} {rest : List FrameWrite} {bytes : Bytes}
    {stage : Option WriterStage} (hwrites : s.writes = w :: rest)
    (hpart : w'.part = w.part ++ bytes) (hwithin : w'.sent ≤ w'.frame.length)
    (hsettled : w'.status ≠ .running → w'.Clean ∨ s.shut = true)
    (hfree : stage = none → s.wedged = false → w'.status ≠ .running)
    (hwritten : w'.status = .written → w'.sent = w'.frame.length)
    (htold : w'.told = true → w'.status = .written)
    (hlatched : stage = some .retiring → s.wedged = true)
    (horder : w'.sent = w.sent ∨ s.shut = false) :
    WriterInv ⟨s.received ++ bytes,w' :: rest,stage,s.wedged,s.shut⟩ := by
  obtain ⟨hbytes,hin,holder,hset,-,hwrote,htells,-,hpair⟩ := h
  rw [hwrites] at hbytes hin holder hset hwrote htells hpair
  refine ⟨?_,?_,holder,?_,?_,?_,?_,hlatched,?_⟩
  · dsimp only
    rw [hbytes,List.reverse_cons,List.reverse_cons,List.flatMap_append,List.flatMap_append,
      List.flatMap_singleton,List.flatMap_singleton,hpart,List.append_assoc]
  · rw [List.forall_mem_cons]
    exact ⟨hwithin,fun x hx => hin x (List.mem_cons_of_mem _ hx)⟩
  · rw [List.forall_mem_cons]
    exact ⟨hsettled,fun x hx => hset x (List.mem_cons_of_mem _ hx)⟩
  · intro hstage hwedged
    rw [List.forall_mem_cons]
    exact ⟨hfree hstage hwedged,holder⟩
  · rw [List.forall_mem_cons]
    exact ⟨hwritten,fun x hx => hwrote x (List.mem_cons_of_mem _ hx)⟩
  · rw [List.forall_mem_cons]
    exact ⟨htold,fun x hx => htells x (List.mem_cons_of_mem _ hx)⟩
  · obtain ⟨hhead,htail⟩ := List.pairwise_cons.mp hpair
    refine List.pairwise_cons.mpr ⟨fun x hx => ?_,htail⟩
    obtain hsame | hopen := horder
    · rw [hsame]
      exact hhead x hx
    · refine Or.inl ((hset x (List.mem_cons_of_mem _ hx) (holder x hx)).resolve_right ?_)
      rw [hopen]
      exact Bool.false_ne_true

lemma WriterInv.enter (h : WriterInv s) (hstage : s.stage = none) (hwedged : s.wedged = false)
    (data : Bytes) :
    WriterInv { s with writes := ⟨data,0,.running,false⟩ :: s.writes, stage := some .waiting } := by
  have hover := h.free hstage hwedged
  refine ⟨?_,?_,hover,?_,fun hnone => (by cases hnone),?_,?_,fun heq => (by cases heq),
    List.pairwise_cons.mpr ⟨fun _ _ => Or.inr rfl,h.order⟩⟩
  · dsimp only
    rw [List.reverse_cons,List.flatMap_append,h.bytes]
    exact (List.append_nil _).symm
  · rw [List.forall_mem_cons]
    exact ⟨Nat.zero_le _,h.within⟩
  · rw [List.forall_mem_cons]
    exact ⟨fun hne => absurd rfl hne,h.settled⟩
  · rw [List.forall_mem_cons]
    exact ⟨fun heq => (by cases heq),h.written⟩
  · rw [List.forall_mem_cons]
    exact ⟨fun heq => (by cases heq),h.told⟩

/-- The stage moves on or the pipe is closed, and the writes stay. -/
lemma WriterInv.pass (h : WriterInv s) {stage : Option WriterStage} {wedged shut : Bool}
    (hshut : s.shut = true → shut = true)
    (hfree : stage = none → wedged = false → ∀ w ∈ s.writes, w.status ≠ .running)
    (hlatched : stage = some .retiring → wedged = true) :
    WriterInv { s with stage := stage, wedged := wedged, shut := shut } :=
  ⟨h.bytes,h.within,h.older,fun w hw hover => (h.settled w hw hover).imp_right hshut,hfree,
    h.written,h.told,hlatched,h.order⟩

lemma part_deliver (w : FrameWrite) (n : ℕ) :
    FrameWrite.part { w with sent := w.sent+n } = w.part ++ (w.frame.drop w.sent).take n := by
  unfold FrameWrite.part
  exact List.take_add

lemma WriterInv.deliver (h : WriterInv s) {k n : ℕ} {w : FrameWrite} (hk : s.writes[k]? = some w)
    (hrun : w.status = .running) (hopen : s.shut = false)
    (hfits : w.sent+n ≤ w.frame.length) :
    WriterInv { s with
      received := s.received ++ (w.frame.drop w.sent).take n, writes := s.writes.set k { w with
        sent := w.sent+n } } := by
  obtain ⟨rest,hwrites,rfl⟩ := h.newest hk hrun
  have hin := List.mem_of_getElem? hk
  rw [hwrites,List.set_cons_zero]
  refine h.set hwrites (part_deliver w n) hfits (fun hne => absurd hrun hne) (fun hstage hwedged =>
    ?_) (fun heq => ?_) (fun htold => ?_) h.latched (Or.inr hopen)
  · exact h.free hstage hwedged w hin
  · rw [hrun] at heq
    cases heq
  · exact h.told w hin htold

lemma WriterInv.finish (h : WriterInv s) {k : ℕ} {w : FrameWrite} (hk : s.writes[k]? = some w)
    (hrun : w.status = .running) (hall : w.sent = w.frame.length) :
    WriterInv { s with writes := s.writes.set k { w with status := .written } } := by
  obtain ⟨rest,hwrites,rfl⟩ := h.newest hk hrun
  rw [hwrites,List.set_cons_zero,← List.append_nil s.received]
  exact h.set hwrites (List.append_nil _).symm (le_of_eq hall) (fun _ => Or.inl (Or.inr hall))
    (fun _ _ heq => (by cases heq)) (fun _ => hall) (fun _ => rfl) h.latched (Or.inl rfl)

lemma WriterInv.fail (h : WriterInv s) {k : ℕ} {w : FrameWrite} (hk : s.writes[k]? = some w)
    (hrun : w.status = .running)
    (hwhere : w.sent = 0 ∨ w.sent = w.frame.length ∨ s.shut = true) :
    WriterInv { s with writes := s.writes.set k { w with status := .failed } } := by
  obtain ⟨rest,hwrites,rfl⟩ := h.newest hk hrun
  have hin := List.mem_of_getElem? hk
  rw [hwrites,List.set_cons_zero,← List.append_nil s.received]
  refine h.set hwrites (List.append_nil _).symm (h.within w hin) (fun _ => ?_) (fun _ _ heq =>
    (by cases heq)) (fun heq => (by cases heq)) (fun htold => ?_) h.latched (Or.inl rfl)
  · obtain hnone | hall | hshut := hwhere
    · exact Or.inl (Or.inl hnone)
    · exact Or.inl (Or.inr hall)
    · exact Or.inr hshut
  · have heq := h.told w hin htold
    rw [hrun] at heq
    cases heq

lemma WriterInv.collect (h : WriterInv s) {w : FrameWrite} {rest : List FrameWrite}
    (hwrites : s.writes = w :: rest) (hover : w.status ≠ .running) :
    WriterInv { s with
      writes := { w with told := w.status = .written } :: rest, stage := none } := by
  have hin : w ∈ s.writes := by
    rw [hwrites]
    exact List.mem_cons_self
  rw [← List.append_nil s.received]
  exact h.set hwrites (List.append_nil _).symm (h.within w hin) (fun _ => h.settled w hin hover)
    (fun _ _ => hover) (fun heq => h.written w hin heq) (fun htold => by simpa using htold)
    (fun heq => (by cases heq)) (Or.inl rfl)

lemma WriterInv.step (h : WriterInv s) (a : WriterAct) : WriterInv (s.step a) := by
  cases a with
  | enter data =>
    unfold Stdin.step
    dsimp only
    split
    · rename_i hstage hwedged
      exact h.enter hstage hwedged data
    · exact h
  | deliver k n =>
    unfold Stdin.step
    dsimp only
    split
    · exact h
    split
    · rename_i w hk hguard
      exact h.deliver hk hguard.1 hguard.2.1 hguard.2.2
    · exact h
  | finish k =>
    unfold Stdin.step
    dsimp only
    split
    · exact h
    split
    · rename_i w hk hguard
      exact h.finish hk hguard.1 hguard.2
    · exact h
  | fail k =>
    unfold Stdin.step
    dsimp only
    split
    · exact h
    split
    · rename_i w hk hguard
      exact h.fail hk hguard.1 hguard.2
    · exact h
  | collect =>
    unfold Stdin.step
    dsimp only
    split
    · rename_i w rest hstage hwrites
      split
      · exact h
      · rename_i hover
        exact h.collect hwrites hover
    · exact h
  | expire =>
    unfold Stdin.step
    dsimp only
    split
    · exact h.pass id (fun heq => (by cases heq)) (fun _ => rfl)
    · exact h
  | retire =>
    unfold Stdin.step
    dsimp only
    split
    · rename_i hstage
      refine h.pass (fun _ => rfl) (fun _ hwedged => ?_) (fun heq => (by cases heq))
      rw [h.latched hstage] at hwedged
      cases hwedged
    · exact h
  | shut => exact h.pass (fun _ => rfl) h.free h.latched

lemma WriterInv.run (h : WriterInv s) (acts : List WriterAct) :
    WriterInv (acts.foldl Stdin.step s) := by
  induction acts generalizing s with
  | nil => exact h
  | cons a acts ih => exact ih (h.step a)

end invariant

/-- The writes from the oldest on: whole frames, and behind a part of one nothing more. -/
lemma parts_whole {ws : List FrameWrite} (hwithin : ∀ w ∈ ws, w.sent ≤ w.frame.length)
    (horder : ws.Pairwise (fun earlier later => earlier.Clean ∨ later.sent = 0)) :
    ∃ tail, ws.flatMap FrameWrite.part =
    ((ws.filter (fun w => w.sent = w.frame.length)).map FrameWrite.frame).flatten ++ tail
      ∧ (tail = [] ∨ ∃ w ∈ ws, tail = w.part ∧ w.sent < w.frame.length) := by
  induction ws with
  | nil => exact ⟨[],rfl,Or.inl rfl⟩
  | cons w ws ih =>
    obtain ⟨hlater,hrest⟩ := List.pairwise_cons.mp horder
    obtain ⟨tail,heq,htail⟩ := ih (fun x hx => hwithin x (List.mem_cons_of_mem _ hx)) hrest
    by_cases hall : w.sent = w.frame.length
    · refine ⟨tail,?_,htail.imp_right (fun ⟨x,hx,h⟩ => ⟨x,List.mem_cons_of_mem _ hx,h⟩)⟩
      rw [List.flatMap_cons,heq,List.filter_cons_of_pos (by simpa using hall),List.map_cons,
        List.flatten_cons,List.append_assoc,FrameWrite.part,hall,List.take_length]
    · rw [List.flatMap_cons,List.filter_cons_of_neg (by simpa using hall)]
      by_cases hnone : w.sent = 0
      · refine ⟨tail,?_,htail.imp_right (fun ⟨x,hx,h⟩ => ⟨x,List.mem_cons_of_mem _ hx,h⟩)⟩
        rw [heq,FrameWrite.part,hnone,List.take_zero,List.nil_append]
      · -- nothing was delivered behind the part of a frame
        have hempty : ∀ x ∈ ws, x.sent = 0 :=
          fun x hx => (hlater x hx).resolve_left (fun hclean => hclean.elim hnone hall)
        have hnothing : ws.flatMap FrameWrite.part = [] := by
          rw [List.flatMap_eq_nil_iff]
          intro x hx
          rw [FrameWrite.part,hempty x hx,List.take_zero]
        have hblank : ((ws.filter
          (fun w => w.sent = w.frame.length)).map FrameWrite.frame).flatten = [] := by
          rw [hnothing] at heq
          exact (List.append_eq_nil_iff.mp heq.symm).1
        refine ⟨w.part,?_,Or.inr ⟨w,List.mem_cons_self,rfl,
          lt_of_le_of_ne (hwithin w List.mem_cons_self) hall⟩⟩
        rw [hnothing,hblank,List.append_nil,List.nil_append]

/-- Whatever the interleaving of the calls, the timing of the writes and the way they fail: what the
server reads is whole frames in the order of their writes and then at most a proper part of one;
every frame whose call returned without an error is among them. -/
theorem frames_unspliced (acts : List WriterAct) :
    ∃ whole tail, (acts.foldl Stdin.step Stdin.init).received = whole.flatten ++ tail ∧
    whole.Sublist (acts.foldl Stdin.step Stdin.init).issued
      ∧ (acts.foldl Stdin.step Stdin.init).acknowledged.Sublist whole
      ∧ (tail = [] ∨ ∃ frame ∈ (acts.foldl Stdin.step Stdin.init).issued, tail <+: frame ∧
        tail ≠ frame) := by
  have h := WriterInv.init.run acts
  generalize acts.foldl Stdin.step Stdin.init = s at h ⊢
  obtain ⟨tail,heq,htail⟩ :=
    @parts_whole s.writes.reverse (fun w hw => h.within w (List.mem_reverse.mp hw))
    (List.pairwise_reverse.mpr h.order)
  refine ⟨(s.writes.reverse.filter (fun w => w.sent = w.frame.length)).map FrameWrite.frame,tail,
    h.bytes.trans heq,List.filter_sublist.map _,?_,?_⟩
  · unfold Stdin.acknowledged
    have hwhole : ∀ w ∈ s.writes.reverse,
      w.told = (w.told && decide (w.sent = w.frame.length)) := by
      intro w hw
      have hin := List.mem_reverse.mp hw
      cases htold : w.told with
      | false => rfl
      | true => simpa using h.written w hin (h.told w hin htold)
    rw [List.filter_congr hwhole,← List.filter_filter]
    exact List.filter_sublist.map _
  · refine htail.imp_right ?_
    rintro ⟨w,hw,rfl,hlt⟩
    refine ⟨w.frame,List.mem_map.mpr ⟨w,hw,rfl⟩,List.take_prefix _ _,fun hall => ?_⟩
    have hlen := congrArg List.length hall
    rw [FrameWrite.part,List.length_take] at hlen
    omega

end Manvi.Mcp
