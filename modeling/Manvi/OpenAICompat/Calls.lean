import Mathlib

/-! The tool calls of a stream: fragments are folded into accumulators that are found by id and by
index. -/
namespace Manvi.OpenAICompat.Calls

/-- A fragment of a tool call on the wire. -/
structure Fragment where
  index : ℤ
  id : String
  name : String
  arguments : String
  deriving DecidableEq

structure Accumulator where
  index : ℤ
  id : String
  name : String
  args : String
  idFromWire : Bool
  started : Bool
  block : ℕ
  deriving DecidableEq

inductive ChunkKind
  | toolCallStart
  | toolCallDelta
  deriving DecidableEq

structure Chunk where
  kind : ChunkKind
  blockIndex : ℕ
  toolCallID : String
  toolName : String
  argumentsRaw : String
  deriving DecidableEq

/-- What a stream keeps of its calls. An accumulator is known by its slot. -/
structure Stream where
  calls : ℤ → Option Accumulator
  callsByID : String → Option ℤ
  openAtIndex : ℤ → Option ℤ
  callOrder : List ℤ
  pending : List Chunk
  argBytes : ℤ
  callBytes : ℤ
  nextIndex : ℕ
  minted : ℕ

def retainedAccumulatorBytes : ℤ := 256

/-- An id for a call the server did not identify, from the number that the sequence of the process
gives. -/
def synthesizeCallID (kind : String) (n : ℕ) : String := "call_" ++ kind ++ "_" ++ toString n

namespace Stream

def start : Stream where
  calls := fun _ => none
  callsByID := fun _ => none
  openAtIndex := fun _ => none
  callOrder := []
  pending := []
  argBytes := 0
  callBytes := 0
  nextIndex := 0
  minted := 0

/-- The first slot from the given one on that is not taken, among as many as may be taken. -/
def freeSlot (calls : ℤ → Option Accumulator) : ℕ → ℤ → ℤ
  | 0,slot => slot
  | n+1,slot => if (calls slot).isSome then freeSlot calls n (slot+1) else slot

/-- The slot of a new accumulator: the index of its fragment, or the next that is free. -/
def newSlot (s : Stream) (delta : Fragment) : ℤ := freeSlot s.calls s.callOrder.length delta.index

/-- Open an accumulator for a call that no other holds. -/
def openCall (s : Stream) (delta : Fragment) : Stream × ℤ :=
  let slot := s.newSlot delta
  ({ s with
    callBytes := s.callBytes+retainedAccumulatorBytes
    nextIndex := s.nextIndex+1
    calls := Function.update s.calls slot (some ⟨slot,"","","",false,false,s.nextIndex⟩)
    callOrder := s.callOrder ++ [slot]
    openAtIndex := Function.update s.openAtIndex delta.index (some slot)
    callsByID := if delta.id ≠ "" then Function.update s.callsByID delta.id (some slot)
      else s.callsByID },slot)

/-- Continue the call that is open at the index of a fragment, unless the server named another
there. -/
def resolveAtIndex (s : Stream) (delta : Fragment) : Stream × ℤ :=
  match s.openAtIndex delta.index with
  | none => s.openCall delta
  | some slot => match s.calls slot with
    | none => s.openCall delta
    | some acc => if delta.id = "" ∨ acc.idFromWire = false ∨ acc.id = delta.id then
        ({ s with
          callsByID := if delta.id ≠ "" then Function.update s.callsByID delta.id (some slot)
            else s.callsByID },slot)
        else s.openCall delta

/-- The accumulator that a fragment belongs to. -/
def resolveAccumulator (s : Stream) (delta : Fragment) : Stream × ℤ :=
  if delta.id ≠ "" then match s.callsByID delta.id with
    | some slot => ({ s with
      openAtIndex := Function.update s.openAtIndex delta.index (some slot) },slot)
    | none => s.resolveAtIndex delta
  else s.resolveAtIndex delta

/-- The id of an accumulator after a fragment, and whether one was made up for it. -/
def identify (acc : Accumulator) (delta : Fragment) (n : ℕ) : Accumulator × Bool :=
  if delta.id ≠ "" then ({ acc with id := delta.id, idFromWire := true },false)
  else if acc.id = "" then ({ acc with id := synthesizeCallID "local" n },true)
  else (acc,false)

def rename (acc : Accumulator) (delta : Fragment) : Accumulator :=
  if delta.name ≠ "" then { acc with name := delta.name } else acc

/-- The chunk that a fragment surfaces. -/
def surface (acc : Accumulator) (delta : Fragment) : Accumulator × List Chunk :=
  if acc.started = false ∧ acc.name ≠ "" then
    ({ acc with started := true },[⟨.toolCallStart,acc.block,acc.id,acc.name,delta.arguments⟩])
  else if delta.arguments ≠ "" then
    (acc,[⟨.toolCallDelta,acc.block,acc.id,acc.name,delta.arguments⟩])
  else (acc,[])

/-- Fold a fragment into its accumulator. The numbers of the sequence of the process that the stream
draws are a parameter. -/
def collect (seq : ℕ → ℕ) (s : Stream) (slot : ℤ) (acc : Accumulator) (delta : Fragment) : Stream :=
  let (identified,mints) := identify acc delta (seq s.minted)
  let named := rename identified delta
  let filled := { named with args := named.args ++ delta.arguments }
  let (surfaced,chunks) := surface filled delta
  { s with
    calls := Function.update s.calls slot (some surfaced)
    callBytes := s.callBytes+(identified.id.utf8ByteSize-acc.id.utf8ByteSize)+
      (named.name.utf8ByteSize-acc.name.utf8ByteSize)
    argBytes := s.argBytes+delta.arguments.utf8ByteSize
    pending := s.pending ++ chunks
    minted := if mints then s.minted+1 else s.minted }

def applyToolCall (seq : ℕ → ℕ) (s : Stream) (delta : Fragment) : Stream :=
  let (s,slot) := s.resolveAccumulator delta
  match s.calls slot with
  | none => s
  | some acc => s.collect seq slot acc delta

def applyToolCalls (seq : ℕ → ℕ) (s : Stream) (deltas : List Fragment) : Stream :=
  deltas.foldl (applyToolCall seq) s

/-- A frame of the stream: what was queued is drained, its text and reasoning open blocks, and its
fragments are folded in. -/
def frame (seq : ℕ → ℕ) (s : Stream) (blocks : ℕ) (deltas : List Fragment) : Stream :=
  applyToolCalls seq { s with nextIndex := s.nextIndex+blocks, pending := [] } deltas

def frames (seq : ℕ → ℕ) (s : Stream) (fs : List (ℕ × List Fragment)) : Stream :=
  fs.foldl (fun s f => s.frame seq f.1 f.2) s

end Stream

/-- What an open accumulator keeps besides its arguments. -/
def Accumulator.retained (acc : Accumulator) : ℤ :=
  retainedAccumulatorBytes+acc.id.utf8ByteSize+acc.name.utf8ByteSize

namespace Stream

/-- The open accumulators in the order they were opened. -/
def opened (s : Stream) : List Accumulator := s.callOrder.filterMap s.calls

/-- The tallies are those of the open accumulators, and the maps lead to open accumulators. -/
structure Tallied (s : Stream) : Prop where
  nodup : s.callOrder.Nodup
  keys : ∀ slot, (s.calls slot).isSome ↔ slot ∈ s.callOrder
  byID : ∀ id slot, s.callsByID id = some slot → slot ∈ s.callOrder
  atIndex : ∀ i slot, s.openAtIndex i = some slot → slot ∈ s.callOrder
  callBytes : s.callBytes = (s.opened.map Accumulator.retained).sum
  argBytes : s.argBytes = (s.opened.map (fun acc => (acc.args.utf8ByteSize : ℤ))).sum

lemma Tallied.start : Tallied Stream.start where
  nodup := List.nodup_nil
  keys := by simp [Stream.start]
  byID := by simp [Stream.start]
  atIndex := by simp [Stream.start]
  callBytes := rfl
  argBytes := rfl

/-- Of as many slots as are taken and one more, one is free. -/
lemma freeSlot_free {calls : ℤ → Option Accumulator} {n : ℕ} {slot : ℤ} (taken : List ℤ)
    (hlen : taken.length = n)
    (hkeys : ∀ sl, slot ≤ sl → (calls sl).isSome → sl ∈ taken) :
    calls (freeSlot calls n slot) = none := by
  induction n generalizing slot taken with
  | zero =>
    rw [List.length_eq_zero_iff] at hlen
    subst hlen
    have hfree : calls slot = none := by simpa using hkeys slot le_rfl
    exact hfree
  | succ n ih =>
    unfold freeSlot
    split_ifs with htaken
    · have hmem := hkeys slot le_rfl htaken
      refine ih (taken.erase slot) ?_ ?_
      · rw [List.length_erase_of_mem hmem,hlen]
        rfl
      · intro sl hle hsome
        have hne : sl ≠ slot := by omega
        exact (List.mem_erase_of_ne hne).mpr (hkeys sl (by omega) hsome)
    · simpa using htaken

section sums
variable {f : Accumulator → ℤ} {calls : ℤ → Option Accumulator} {slot : ℤ} {acc acc' : Accumulator}

lemma filterMap_update_of_notMem {l : List ℤ} (h : slot ∉ l) (x : Option Accumulator) :
    l.filterMap (Function.update calls slot x) = l.filterMap calls := by
  refine List.filterMap_congr (fun sl hsl => ?_)
  refine Function.update_of_ne ?_ _ _
  rintro rfl
  exact h hsl

/-- A sum over the accumulators changes by what the accumulator at one slot does. -/
lemma sum_update {l : List ℤ} (hnodup : l.Nodup) (hmem : slot ∈ l) (hacc : calls slot = some acc) :
    ((l.filterMap (Function.update calls slot (some acc'))).map f).sum =
    ((l.filterMap calls).map f).sum+(f acc'-f acc) := by
  induction l with
  | nil => cases hmem
  | cons sl l ih =>
    obtain ⟨hnot,hrest⟩ := List.nodup_cons.mp hnodup
    by_cases hsl : sl = slot
    · subst hsl
      rw [List.filterMap_cons_some (Function.update_self _ _ _),List.filterMap_cons_some hacc,
        filterMap_update_of_notMem hnot,
        List.map_cons,List.map_cons,List.sum_cons,List.sum_cons]
      ring
    · have htail : slot ∈ l := (List.mem_cons.mp hmem).resolve_left (fun h => hsl h.symm)
      have ih := ih hrest htail
      have hsame : Function.update calls slot (some acc') sl = calls sl :=
        Function.update_of_ne hsl _ _
      cases hc : calls sl with
      | none =>
        rw [List.filterMap_cons_none (hsame.trans hc),List.filterMap_cons_none hc]
        exact ih
      | some x =>
        rw [List.filterMap_cons_some (hsame.trans hc),List.filterMap_cons_some hc,List.map_cons,
          List.map_cons,List.sum_cons,
          List.sum_cons,ih]
        ring

end sums

section tallies
variable {s : Stream} {delta : Fragment} {slot : ℤ} {acc : Accumulator} {seq : ℕ → ℕ}

lemma Tallied.newSlot_notMem (h : Tallied s) (delta : Fragment) :
    s.newSlot delta ∉ s.callOrder := by
  intro hmem
  have hfree : s.calls (s.newSlot delta) = none :=
    freeSlot_free s.callOrder rfl (fun sl _ hsome => (h.keys sl).mp hsome)
  have hsome := (h.keys _).mpr hmem
  rw [hfree] at hsome
  cases hsome

/-- Looking up the accumulator of a fragment gives one that is open. -/
lemma Tallied.openCall (h : Tallied s) (delta : Fragment) :
    Tallied (s.openCall delta).1 ∧ (s.openCall delta).2 ∈ (s.openCall delta).1.callOrder := by
  have hnew := h.newSlot_notMem delta
  have hmem : ∀ {sl}, sl ∈ s.callOrder → sl ∈ s.callOrder ++ [s.newSlot delta] :=
    List.mem_append_left _
  have hself : s.newSlot delta ∈ s.callOrder ++ [s.newSlot delta] := by simp
  have hopened : (s.openCall delta).1.opened = s.opened ++
    [⟨s.newSlot delta,"","","",false,false,s.nextIndex⟩] := by
    show (s.callOrder ++ [s.newSlot delta]).filterMap (Function.update s.calls
      (s.newSlot delta) _) = _
    rw [List.filterMap_append,filterMap_update_of_notMem hnew,
      List.filterMap_cons_some (Function.update_self _ _ _)]
    rfl
  refine ⟨⟨?_,?_,?_,?_,?_,?_⟩,hself⟩
  · refine List.nodup_append.mpr ⟨h.nodup,List.nodup_singleton _,fun a ha b hb => ?_⟩
    rw [List.mem_singleton] at hb
    rintro rfl
    subst hb
    exact hnew ha
  · intro sl
    show (Function.update s.calls (s.newSlot delta) _ sl).isSome ↔ sl ∈ s.callOrder ++
      [s.newSlot delta]
    by_cases hsl : sl = s.newSlot delta
    · subst hsl
      simp
    · rw [Function.update_of_ne hsl,h.keys sl]
      simp [hsl]
  · intro id sl hid
    have hid : (if delta.id ≠ "" then Function.update s.callsByID delta.id (some (s.newSlot delta))
      else s.callsByID) id = some sl := hid
    split_ifs at hid
    · rw [Function.update_apply] at hid
      split_ifs at hid
      · cases hid
        exact hself
      · exact hmem (h.byID id sl hid)
    · exact hmem (h.byID id sl hid)
  · intro i sl hi
    have hi : Function.update s.openAtIndex delta.index (some (s.newSlot delta)) i = some sl := hi
    rw [Function.update_apply] at hi
    split_ifs at hi
    · cases hi
      exact hself
    · exact hmem (h.atIndex i sl hi)
  · rw [hopened,List.map_append,List.sum_append,← h.callBytes]
    rfl
  · rw [hopened,List.map_append,List.sum_append,← h.argBytes]
    simp only [List.map_cons,List.map_nil,List.sum_singleton,String.utf8ByteSize_empty]
    exact (add_zero _).symm

lemma Tallied.resolveAtIndex (h : Tallied s) (delta : Fragment) :
    Tallied (s.resolveAtIndex delta).1 ∧
    (s.resolveAtIndex delta).2 ∈ (s.resolveAtIndex delta).1.callOrder := by
  unfold Stream.resolveAtIndex
  split
  · exact h.openCall delta
  · rename_i slot hslot
    have hmem := h.atIndex _ _ hslot
    split
    · exact h.openCall delta
    · split_ifs
      · refine ⟨⟨h.nodup,h.keys,?_,h.atIndex,h.callBytes,h.argBytes⟩,hmem⟩
        exact (Function.forall_update_iff s.callsByID (fun _ x => ∀ sl, x = some sl →
          sl ∈ s.callOrder)).mpr
          ⟨fun sl he => (by cases he; exact hmem),fun id _ => h.byID id⟩
      · exact ⟨⟨h.nodup,h.keys,h.byID,h.atIndex,h.callBytes,h.argBytes⟩,hmem⟩
      · exact h.openCall delta

lemma Tallied.resolveAccumulator (h : Tallied s) (delta : Fragment) :
    Tallied (s.resolveAccumulator delta).1 ∧
    (s.resolveAccumulator delta).2 ∈ (s.resolveAccumulator delta).1.callOrder := by
  unfold Stream.resolveAccumulator
  split_ifs
  · split
    · rename_i slot hslot
      have hmem := h.byID _ _ hslot
      refine ⟨⟨h.nodup,h.keys,h.byID,?_,h.callBytes,h.argBytes⟩,hmem⟩
      exact (Function.forall_update_iff s.openAtIndex (fun _ x => ∀ sl, x = some sl →
        sl ∈ s.callOrder)).mpr
        ⟨fun sl he => (by cases he; exact hmem),fun i _ => h.atIndex i⟩
    · exact h.resolveAtIndex delta
  · exact h.resolveAtIndex delta

/-- The accumulator after a fragment. -/
def filled (acc : Accumulator) (delta : Fragment) (n : ℕ) : Accumulator :=
  (surface { rename (identify acc delta n).1 delta with
    args := acc.args ++ delta.arguments } delta).1

@[simp] lemma identify_args (acc : Accumulator) (delta : Fragment) (n : ℕ) :
    (identify acc delta n).1.args = acc.args := by
  unfold identify
  split_ifs <;> rfl

@[simp] lemma identify_name (acc : Accumulator) (delta : Fragment) (n : ℕ) :
    (identify acc delta n).1.name = acc.name := by
  unfold identify
  split_ifs <;> rfl

@[simp] lemma rename_args (acc : Accumulator) (delta : Fragment) :
    (rename acc delta).args = acc.args := by
  unfold rename
  split_ifs <;> rfl

@[simp] lemma rename_id (acc : Accumulator) (delta : Fragment) :
    (rename acc delta).id = acc.id := by
  unfold rename
  split_ifs <;> rfl

@[simp] lemma rename_idFromWire (acc : Accumulator) (delta : Fragment) :
    (rename acc delta).idFromWire = acc.idFromWire := by
  unfold rename
  split_ifs <;> rfl

lemma rename_name (acc : Accumulator) (delta : Fragment) :
    (rename acc delta).name = if delta.name ≠ "" then delta.name else acc.name := by
  unfold rename
  split_ifs <;> rfl

lemma surface_same (acc : Accumulator) (delta : Fragment) :
    (surface acc delta).1.id = acc.id ∧ (surface acc delta).1.name = acc.name ∧
    (surface acc delta).1.args = acc.args ∧ (surface acc delta).1.idFromWire = acc.idFromWire := by
  unfold surface
  split_ifs <;> exact ⟨rfl,rfl,rfl,rfl⟩

lemma filled_id (acc : Accumulator) (delta : Fragment) (n : ℕ) :
    (filled acc delta n).id = (identify acc delta n).1.id :=
  (surface_same _ _).1.trans (rename_id _ _)

lemma filled_idFromWire (acc : Accumulator) (delta : Fragment) (n : ℕ) :
    (filled acc delta n).idFromWire = (identify acc delta n).1.idFromWire :=
  (surface_same _ _).2.2.2.trans (rename_idFromWire _ _)

lemma filled_name (acc : Accumulator) (delta : Fragment) (n : ℕ) :
    (filled acc delta n).name = (rename (identify acc delta n).1 delta).name :=
    (surface_same _ _).2.1

lemma filled_args (acc : Accumulator) (delta : Fragment) (n : ℕ) :
    (filled acc delta n).args = acc.args ++ delta.arguments :=
  (surface_same _ _).2.2.1

lemma collect_calls (seq : ℕ → ℕ) (s : Stream) (slot : ℤ) (acc : Accumulator) (delta : Fragment) :
    (s.collect seq slot acc delta).calls = Function.update s.calls slot
    (some (filled acc delta (seq s.minted))) := by
  simp only [collect,filled,rename_args,identify_args]

lemma collect_callBytes (seq : ℕ → ℕ) (s : Stream) (slot : ℤ) (acc : Accumulator)
    (delta : Fragment) :
    (s.collect seq slot acc delta).callBytes = s.callBytes+
      ((filled acc delta (seq s.minted)).id.utf8ByteSize-acc.id.utf8ByteSize)+
      ((filled acc delta (seq s.minted)).name.utf8ByteSize-acc.name.utf8ByteSize) := by
  rw [filled_id,filled_name]
  rfl

lemma Tallied.collect (h : Tallied s) (hmem : slot ∈ s.callOrder) (hacc : s.calls slot = some acc) :
    Tallied (s.collect seq slot acc delta) := by
  have hopened : (s.collect seq slot acc delta).opened =
      s.callOrder.filterMap (Function.update s.calls slot
        (some (filled acc delta (seq s.minted)))) := by
    rw [opened,collect_calls]
    rfl
  refine ⟨h.nodup,?_,h.byID,h.atIndex,?_,?_⟩
  · intro sl
    rw [collect_calls]
    show _ ↔ sl ∈ s.callOrder
    by_cases hsl : sl = slot
    · subst hsl
      simp [hmem]
    · rw [Function.update_of_ne hsl]
      exact h.keys sl
  · rw [hopened,sum_update h.nodup hmem hacc]
    rw [collect_callBytes,h.callBytes,opened,Accumulator.retained,Accumulator.retained]
    ring
  · rw [hopened,sum_update h.nodup hmem hacc]
    show s.argBytes+_ = _
    rw [h.argBytes,opened,filled_args,String.utf8ByteSize_append]
    push_cast
    ring

lemma Tallied.applyToolCall (h : Tallied s) (delta : Fragment) :
    Tallied (s.applyToolCall seq delta) := by
  obtain ⟨hres,hmem⟩ := h.resolveAccumulator delta
  unfold Stream.applyToolCall
  dsimp only
  split
  · exact hres
  · rename_i acc hacc
    exact hres.collect hmem hacc

lemma Tallied.applyToolCalls (h : Tallied s) (deltas : List Fragment) :
    Tallied (s.applyToolCalls seq deltas) := by
  induction deltas generalizing s with
  | nil => exact h
  | cons delta deltas ih => exact ih (h.applyToolCall delta)

lemma Tallied.frames (h : Tallied s) (fs : List (ℕ × List Fragment)) :
    Tallied (s.frames seq fs) := by
  induction fs generalizing s with
  | nil => exact h
  | cons f fs ih =>
    refine ih (Tallied.applyToolCalls ?_ f.2)
    exact ⟨h.nodup,h.keys,h.byID,h.atIndex,h.callBytes,h.argBytes⟩

end tallies
end Stream
end Manvi.OpenAICompat.Calls
