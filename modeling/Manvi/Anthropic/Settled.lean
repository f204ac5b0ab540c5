import Manvi.Anthropic.Stream

/-! A settled response against the blocks that the stream opened. -/
namespace Manvi.Anthropic
open Manvi.Encoding Manvi.LLM

/-- What happens to a block once it is open. -/
inductive Mark
  | delta (d : WireDelta)
  | stop
  deriving DecidableEq

namespace Mark

/-- The text or reasoning a delta carries. -/
def said : Mark → String
  | .delta d => match d.kind with
    | .text => d.text
    | .thinking => d.thinking
    | _ => ""
  | .stop => ""

/-- The arguments a delta carries. -/
def argued : Mark → String
  | .delta d => if d.kind = .inputJSON then d.partialJSON else ""
  | .stop => ""

def signed : Mark → String
  | .delta d => if d.kind = .signature then d.signature else ""
  | .stop => ""

/-- Whether a block of some kind has a place for what a delta carries. -/
def fits (kind : BlockKind) (m : Mark) : Bool :=
  match kind with
  | .text | .thinking => m.argued = ""
  | .toolUse => m.said = ""
  | _ => m.said = "" ∧ m.argued = ""

end Mark

/-- A block that the stream opened: its start, and its own deltas and stops in order. -/
structure Opened where
  index : ℤ
  start : WireBlock
  trail : List Mark
  deriving DecidableEq

/-- Mark the block that was opened last at an index. -/
def mark (index : ℤ) (m : Mark) : List Opened → List Opened
  | [] => []
  | o :: os => if o.index = index then { o with trail := o.trail ++ [m] } :: os
    else o :: mark index m os

/-- The blocks opened so far, the newest first, with one more frame. -/
def note (os : List Opened) : Frame → List Opened
  | .undecodable => os
  | .event ev => match ev.type with
    | some .contentBlockStart => match ev.contentBlock with
      | some b => ⟨ev.index,b,[]⟩ :: os
      | none => os
    | some .contentBlockDelta => match ev.delta with
      | some d => mark ev.index (.delta d) os
      | none => os
    | some .contentBlockStop => mark ev.index .stop os
    | _ => os

def noted (frames : List Frame) : List Opened := frames.foldl note []

/-- The blocks that some frames open, in order. -/
def opened (frames : List Frame) : List Opened := (noted frames).reverse

namespace Opened
variable (o : Opened)

def kind : BlockKind := o.start.kind

def text : String := String.join (o.trail.map Mark.said)

def args : String := String.join (o.trail.map Mark.argued)

def arguments : RawMessage := if o.args = "" then "\x7b\x7d".toList else o.args.toList

/-- A call that was cut off: never closed, or with arguments that are no JSON. -/
def cut : Bool := o.kind = .toolUse ∧ ¬ (.stop ∈ o.trail ∧ jsonValid o.arguments)

/-- The block of the message that an opened block stands for, from its own start and deltas. -/
def block : Option ContentBlock :=
  match o.kind with
  | .text => some (.text (o.start.text ++ o.text))
  | .thinking => some (.reasoning o.text (String.join (o.trail.map Mark.signed)) false)
  | .redactedThinking => some (.reasoning "" o.start.data true)
  | .toolUse => some (.toolCall o.start.id o.start.name o.arguments)
  | .other _ => none

def malformedCall : MalformedCall where
  id := o.start.id
  name := o.start.name
  reason := "the arguments were cut off by the output limit after " ++
    toString o.args.utf8ByteSize ++
    " bytes and are not complete JSON"

/-- The block was closed, and no argument came after that. -/
def ClosedLast : Prop :=
  ∃ before after, o.trail = before ++ .stop :: after ∧ ∀ m ∈ after, ∀ d, m = .delta d →
  d.kind ≠ .inputJSON

def ArgumentsObject : Prop := ∃ members, Json.parse o.arguments = some (.obj members)

/-- The accumulator of an opened block. -/
def acc : Accumulator :=
  o.trail.foldl (fun acc m => match m with
    | .delta d => acc.add d
    | .stop => { acc with isSealed := true }) (.start o.start)

end Opened

@[simp] lemma join_concat (l : List String) (s : String) : String.join (l ++ [s]) = String.join l ++
    s := by
  rw [String.join,List.foldl_append]
  rfl

/-- An accumulator holds what its block's own deltas carry, one after the other. -/
lemma acc_eq (o : Opened) :
    o.acc = { kind := o.kind, text := (Accumulator.start o.start).text ++ o.text, signature := String.join (o.trail.map Mark.signed), data := (Accumulator.start o.start).data, toolID := (Accumulator.start o.start).toolID, toolName := (Accumulator.start o.start).toolName, args := o.args, isSealed := decide (.stop ∈ o.trail) } := by
  obtain ⟨index,start,trail⟩ := o
  unfold Opened.acc Opened.text Opened.args Opened.kind
  dsimp only
  induction trail using List.reverseRecOn with
  | nil =>
    unfold Accumulator.start
    cases start.kind <;> simp [String.join]
  | append_singleton trail m ih =>
    rw [List.foldl_append,List.foldl_cons,List.foldl_nil,ih,List.map_append,List.map_append,
      List.map_append]
    simp only [List.map_cons,List.map_nil,join_concat]
    cases m with
    | stop => simp [Mark.said,Mark.argued,Mark.signed]
    | delta d =>
      unfold Accumulator.add
      cases hk : d.kind <;> simp [Mark.said,Mark.argued,Mark.signed,hk,String.append_assoc]

namespace Stream
variable {s s' : Stream}

lemma start_weight (s : Stream) (index : ℤ) (b : WireBlock) :
    (s.startBlock index b).1.blocks = s.blocks.set index (.start b) ∧
    (s.startBlock index b).1.order = s.order ++ [index] ∧
    (s.startBlock index b).1.retained = s.retained+(Accumulator.start b).weight ∧
    (s.startBlock index b).1.failure = s.failure := by
  unfold startBlock Accumulator.weight Accumulator.start
  cases hk : b.kind with
  | text =>
    by_cases ht : b.text = ""
    · simp [ht]
    · simp [ht,Nat.add_assoc]
  | thinking => simp
  | redactedThinking => simp [Nat.add_assoc]
  | toolUse => simp [Nat.add_assoc]
  | other name => simp

/-- What an event can do to the blocks: open one, add to one, close one, or nothing. -/
lemma apply_cases {ev : WireEvent} {chunk : Option Chunk} (h : s.apply ev = .ok (s',chunk)) :
    s'.failure = s.failure ∧
    ((∃ b, ev.type = some .contentBlockStart ∧ ev.contentBlock = some b ∧
      s'.blocks = s.blocks.set ev.index (.start b) ∧ s'.order = s.order ++ [ev.index] ∧
      s'.retained = s.retained+(Accumulator.start b).weight) ∨
    (∃ acc d, ev.type = some .contentBlockDelta ∧ s.blocks.get ev.index = some acc ∧
      ev.delta = some d ∧
      s'.blocks = s.blocks.set ev.index (acc.add d) ∧ s'.order = s.order ∧
      s'.retained+acc.weight = s.retained+(acc.add d).weight) ∨
    (ev.type = some .contentBlockStop ∧ s' = s.closeBlock ev.index) ∨
    ((∀ os, note os (.event ev) = os) ∧ s'.blocks = s.blocks ∧ s'.order = s.order ∧
      s'.retained = s.retained)) := by
  unfold apply at h
  cases htype : ev.type with
  | none =>
    rw [htype] at h
    cases h
    exact ⟨rfl,.inr (.inr (.inr ⟨fun os => by rw [note,htype],rfl,rfl,rfl⟩))⟩
  | some kind =>
    rw [htype] at h
    have hquiet : kind ≠ .contentBlockStart → kind ≠ .contentBlockDelta → kind ≠ .contentBlockStop →
        ∀ os, note os (.event ev) = os := by
      intro h1 h2 h3 os
      rw [note,htype]
      cases kind <;> first | rfl | contradiction
    cases kind with
    | messageStart =>
      refine ⟨?_,.inr (.inr (.inr ⟨hquiet (by simp) (by simp) (by simp),?_⟩))⟩ <;>
      · dsimp only at h
        cases hm : ev.message with
        | none =>
          rw [hm] at h
          cases h
          simp
        | some w =>
          rw [hm] at h
          cases h
          simp
    | contentBlockStart =>
      dsimp only at h
      cases hb : ev.contentBlock with
      | none =>
        rw [hb] at h
        cases h
      | some b =>
        rw [hb] at h
        obtain ⟨hblocks,horder,hretained,hfailure⟩ := start_weight s ev.index b
        have hs : s' = (s.startBlock ev.index b).1 := by
          rw [Except.ok.inj h]
        rw [hs]
        exact ⟨hfailure,.inl ⟨b,rfl,rfl,hblocks,horder,hretained⟩⟩
    | contentBlockDelta =>
      dsimp only at h
      cases hacc : s.blocks.get ev.index with
      | none =>
        rw [hacc] at h
        cases h
      | some acc =>
        cases hd : ev.delta with
        | none =>
          rw [hacc,hd] at h
          cases h
        | some d =>
          rw [hacc,hd] at h
          dsimp only at h
          unfold addDelta at h
          cases hk : d.kind with
          | other name =>
            rw [hk] at h
            cases h
          | _ =>
            rw [hk] at h
            cases h
            refine ⟨rfl,.inr (.inl ⟨acc,d,rfl,rfl,rfl,rfl,rfl,?_⟩)⟩
            simp only [Accumulator.add,hk,Accumulator.weight,String.utf8ByteSize_append]
            omega
    | contentBlockStop =>
      cases h
      refine ⟨?_,.inr (.inr (.inl ⟨rfl,rfl⟩))⟩
      unfold closeBlock
      cases s.blocks.get ev.index <;> rfl
    | messageDelta =>
      cases h
      exact ⟨rfl,.inr (.inr (.inr ⟨hquiet (by simp) (by simp) (by simp),rfl,rfl,rfl⟩))⟩
    | messageStop =>
      cases h
      exact ⟨rfl,.inr (.inr (.inr ⟨hquiet (by simp) (by simp) (by simp),rfl,rfl,rfl⟩))⟩
    | ping =>
      cases h
      exact ⟨rfl,.inr (.inr (.inr ⟨hquiet (by simp) (by simp) (by simp),rfl,rfl,rfl⟩))⟩
    | error => cases h
    | other name =>
      cases h
      exact ⟨rfl,.inr (.inr (.inr ⟨hquiet (by simp) (by simp) (by simp),rfl,rfl,rfl⟩))⟩

/-- A frame behind which the stream has not failed was applied, to a stream that had not. -/
lemma next_ok {f : Frame} (h : (s.next f).1.failure = none) : s.failure = none ∧ ∃ ev chunk,
    f = .event ev ∧ s.apply ev = .ok ((s.next f).1,chunk) := by
  unfold next at h ⊢
  cases hs : s.failure with
  | some err =>
    rw [hs] at h
    dsimp only [Option.isSome_some,if_true] at h
    rw [if_pos rfl] at h
    rw [hs] at h
    cases h
  | none =>
    rw [hs] at h
    simp only [Option.isSome_none,Bool.false_eq_true,if_false] at h ⊢
    cases f with
    | undecodable => cases h
    | event ev =>
      dsimp only at h ⊢
      by_cases hd : disagrees ev = true
      · rw [if_pos hd] at h
        cases h
      · rw [if_neg hd] at h ⊢
        cases ha : s.apply ev with
        | error err =>
          rw [ha] at h
          cases h
        | ok r =>
          rw [ha] at h
          dsimp only at h ⊢
          by_cases hmax : maxDecodedResponseBytes < r.1.retained
          · rw [if_pos hmax] at h
            cases h
          · rw [if_neg hmax]
            exact ⟨trivial,ev,r.2,rfl,ha⟩

@[simp] lemma run_append (s : Stream) (frames : List Frame) (f : Frame) :
    s.run (frames ++ [f]) = ((s.run frames).next f).1 := by
  rw [run,List.foldl_append]
  rfl

/-- The bytes that the blocks hold, with their charges. -/
def heldBytes (s : Stream) : ℕ := s.blocks.total Accumulator.weight

/-- What is retained is what the blocks hold, unless an index was used twice; then it is more. -/
def Accounted (s : Stream) (indices : List ℤ) : Prop :=
  (indices.Nodup → s.retained = s.heldBytes) ∧ (¬ indices.Nodup → s.heldBytes < s.retained)

/-- A stream that has not failed, against the blocks noted from the same frames. -/
structure Holds (s : Stream) (os : List Opened) : Prop where
  order : s.order = (os.map Opened.index).reverse
  blocks : ∀ i, s.blocks.get i = (os.find? (fun o => o.index = i)).map Opened.acc
  retained : Accounted s (os.map Opened.index)

lemma mark_index (index : ℤ) (m : Mark) (os : List Opened) :
    (mark index m os).map Opened.index = os.map Opened.index := by
  induction os with
  | nil => rfl
  | cons o os ih =>
    unfold mark
    split_ifs
    · rfl
    · rw [List.map_cons,List.map_cons,ih]

/-- A mark goes to the newest block at its index. -/
lemma find_mark (index : ℤ) (m : Mark) (os : List Opened) (i : ℤ) :
    (mark index m os).find? (fun o => o.index = i) =
      if i = index then (os.find? (fun o => o.index = i)).map (fun o => { o with
        trail := o.trail ++ [m] })
      else os.find? (fun o => o.index = i) := by
  induction os with
  | nil => simp [mark]
  | cons o os ih =>
    unfold mark
    by_cases ho : o.index = index
    · rw [if_pos ho]
      by_cases hi : i = index
      · rw [if_pos hi,List.find?_cons_of_pos (by simp [ho,hi]),
          List.find?_cons_of_pos (by simp [ho,hi])]
        rfl
      · have hne : ¬ o.index = i := fun he => hi (he.symm.trans ho)
        rw [if_neg hi,List.find?_cons_of_neg (by simpa using hne),
          List.find?_cons_of_neg (by simpa using hne)]
    · rw [if_neg ho]
      by_cases hi : o.index = i
      · have hne : ¬ i = index := fun he => ho (hi.trans he)
        rw [if_neg hne,List.find?_cons_of_pos (by simpa using hi),
          List.find?_cons_of_pos (by simpa using hi)]
      · rw [List.find?_cons_of_neg (by simpa using hi),
          List.find?_cons_of_neg (by simpa using hi),ih]

lemma acc_delta (o : Opened) (d : WireDelta) :
    Opened.acc { o with trail := o.trail ++ [.delta d] } = o.acc.add d := by
  rw [Opened.acc,List.foldl_append]
  rfl

lemma acc_stop (o : Opened) :
    Opened.acc { o with trail := o.trail ++ [.stop] } = { o.acc with isSealed := true } := by
  rw [Opened.acc,List.foldl_append]
  rfl

/-- Replacing a block by one that weighs more by what was retained keeps the account. -/
lemma Holds.replaced {os : List Opened} (h : Holds s os) {index : ℤ} {old new : Accumulator}
    (hold : s.blocks.get index = some old) (hblocks : s'.blocks = s.blocks.set index new)
    (hretained : s'.retained+old.weight = s.retained+new.weight) :
    Accounted s' (os.map Opened.index) := by
  have htotal := Table.total_set_of_some hold new Accumulator.weight
  obtain ⟨hexact,hover⟩ := h.retained
  unfold heldBytes at hexact hover
  unfold Accounted heldBytes
  rw [hblocks]
  refine ⟨?_,?_⟩
  · intro hn
    have := hexact hn
    omega
  · intro hn
    have := hover hn
    omega

/-- Opening a block at a new index keeps the account, and opening one at an index in use leaves the
old block in it. -/
lemma Holds.opened_retained {os : List Opened} (h : Holds s os) {index : ℤ} {b : WireBlock}
    (hblocks : s'.blocks = s.blocks.set index (.start b))
    (hretained : s'.retained = s.retained+(Accumulator.start b).weight) :
    Accounted s' (index :: os.map Opened.index) := by
  obtain ⟨hexact,hover⟩ := h.retained
  have hpresent := h.blocks index
  unfold heldBytes at hexact hover
  unfold Accounted heldBytes
  rw [hblocks,hretained,List.nodup_cons]
  cases hget : s.blocks.get index with
  | none =>
    have habsent : index ∉ os.map Opened.index := by
      rw [hget,eq_comm,Option.map_eq_none_iff,List.find?_eq_none] at hpresent
      intro hmem
      obtain ⟨o,ho,hi⟩ := List.mem_map.mp hmem
      exact hpresent o ho (by simpa using hi)
    rw [Table.total_set_of_none hget]
    refine ⟨?_,?_⟩
    · intro hn
      have := hexact hn.2
      omega
    · intro hn
      have := hover (fun hn' => hn ⟨habsent,hn'⟩)
      omega
  | some old =>
    have hin : index ∈ os.map Opened.index := by
      rw [hget,eq_comm,Option.map_eq_some_iff] at hpresent
      obtain ⟨o,ho,_⟩ := hpresent
      have hi := List.find?_some ho
      rw [decide_eq_true_eq] at hi
      exact List.mem_map.mpr ⟨o,List.mem_of_find?_eq_some ho,hi⟩
    have htotal := Table.total_set_of_some hget (Accumulator.start b) Accumulator.weight
    have hcharge : 256 ≤ old.weight := by
      unfold Accumulator.weight retainedAccumulatorBytes
      omega
    have hle : s.blocks.total Accumulator.weight ≤ s.retained := by
      by_cases hn : (os.map Opened.index).Nodup
      · exact (hexact hn).ge
      · exact (hover hn).le
    refine ⟨?_,?_⟩
    · intro hn
      exact absurd hin hn.1
    · intro _
      omega

/-- Marking the newest block at an index, in the table and among the noted ones. -/
lemma Holds.marked {os : List Opened} (h : Holds s os) {index : ℤ} {m : Mark} {new : Accumulator}
    (hblocks : s'.blocks = s.blocks.set index new)
    (hnew : ∀ o, os.find? (fun o => o.index = index) = some o →
      Opened.acc { o with trail := o.trail ++ [m] } = new) (hget : (s.blocks.get index).isSome) :
    ∀ i, s'.blocks.get i = ((mark index m os).find? (fun o => o.index = i)).map Opened.acc := by
  intro i
  rw [hblocks,Table.get_set,find_mark]
  by_cases hi : i = index
  · rw [if_pos hi,if_pos hi,hi]
    cases hf : os.find? (fun o => o.index = index) with
    | none =>
      have hnone := h.blocks index
      rw [hf] at hnone
      rw [hnone] at hget
      cases hget
    | some o => rw [Option.map_some,Option.map_some,hnew o hf]
  · rw [if_neg hi,if_neg hi]
    exact h.blocks i

lemma Holds.next {os : List Opened} (h : Holds s os) {f : Frame}
    (hok : (s.next f).1.failure = none) :
    Holds (s.next f).1 (note os f) := by
  obtain ⟨_,ev,chunk,rfl,happly⟩ := next_ok hok
  generalize (s.next (.event ev)).1 = s' at happly ⊢
  obtain ⟨_,hcases⟩ := apply_cases happly
  obtain ⟨b,htype,hb,hblocks,horder,hretained⟩ | ⟨acc,d,htype,hget,hd,hblocks,horder,hretained⟩ |
    ⟨htype,rfl⟩ | ⟨hquiet,hblocks,horder,hretained⟩ := hcases
  · have hnote : note os (.event ev) = ⟨ev.index,b,[]⟩ :: os := by rw [note,htype,hb]
    rw [hnote]
    refine ⟨?_,?_,?_⟩
    · rw [horder,h.order,List.map_cons,List.reverse_cons]
    · intro i
      rw [hblocks,Table.get_set]
      by_cases hi : i = ev.index
      · rw [if_pos hi,List.find?_cons_of_pos (by simp [hi])]
        rfl
      · have hne : ¬ ev.index = i := fun he => hi he.symm
        rw [if_neg hi,List.find?_cons_of_neg (by simpa using hne)]
        exact h.blocks i
    · exact h.opened_retained hblocks hretained
  · have hnote : note os (.event ev) = mark ev.index (.delta d) os := by rw [note,htype,hd]
    rw [hnote]
    refine ⟨?_,?_,?_⟩
    · rw [horder,h.order,mark_index]
    · refine h.marked hblocks ?_ (by rw [hget]; rfl)
      intro o ho
      rw [acc_delta]
      have hacc := h.blocks ev.index
      rw [hget,ho] at hacc
      rw [Option.some.inj hacc]
    · rw [mark_index]
      exact h.replaced hget hblocks hretained
  · have hnote : note os (.event ev) = mark ev.index .stop os := by rw [note,htype]
    rw [hnote]
    cases hget : s.blocks.get ev.index with
    | none =>
      have hsame : s.closeBlock ev.index = s := by rw [closeBlock,hget]
      rw [hsame]
      refine ⟨by rw [h.order,mark_index],?_,by rw [mark_index]; exact h.retained⟩
      intro i
      rw [find_mark]
      split_ifs with hi
      · rw [hi,hget]
        have hnone := h.blocks ev.index
        rw [hget,eq_comm,Option.map_eq_none_iff] at hnone
        rw [hnone]
        rfl
      · exact h.blocks i
    | some acc =>
      have hclose : s.closeBlock ev.index =
          { s with blocks := s.blocks.set ev.index { acc with isSealed := true } } := by
        rw [closeBlock,hget]
      rw [hclose]
      refine ⟨by rw [mark_index]; exact h.order,?_,?_⟩
      · refine h.marked rfl ?_ (by rw [hget]; rfl)
        intro o ho
        rw [acc_stop]
        have hacc := h.blocks ev.index
        rw [hget,ho] at hacc
        rw [Option.some.inj hacc]
      · rw [mark_index]
        exact h.replaced hget rfl rfl
  · rw [hquiet]
    refine ⟨by rw [horder,h.order],?_,?_⟩
    · intro i
      rw [hblocks]
      exact h.blocks i
    · have hret := h.retained
      unfold Accounted heldBytes at hret ⊢
      rw [hblocks,hretained]
      exact hret

/-- A stream that has read nothing. -/
def new (model : String) (maxTokensApplied : ℤ) : Stream :=
  { model := model, maxTokensApplied := maxTokensApplied }

lemma run_failure_take {frames : List Frame} (h : (s.run frames).failure = none) (n : ℕ) :
    (s.run (frames.take n)).failure = none := by
  induction frames using List.reverseRecOn with
  | nil =>
    rw [List.take_nil]
    exact h
  | append_singleton frames f ih =>
    have hbefore : (s.run frames).failure = none := by
      rw [run_append] at h
      exact (next_ok h).1
    by_cases hn : n ≤ frames.length
    · rw [List.take_append_of_le_length hn]
      exact ih hbefore
    · rw [List.take_of_length_le (by rw [List.length_append,List.length_singleton]; omega)]
      exact h

/-- A stream that has not failed holds what the frames opened. -/
theorem run_holds {model : String} {most : ℤ} {frames : List Frame}
    (h : ((new model most).run frames).failure = none) :
    Holds ((new model most).run frames) (noted frames) := by
  induction frames using List.reverseRecOn with
  | nil => exact ⟨rfl,fun i => rfl,fun _ => rfl,fun hn => absurd List.nodup_nil hn⟩
  | append_singleton frames f ih =>
    rw [run_append] at h ⊢
    have hnoted : noted (frames ++ [f]) = note (noted frames) f := by
      rw [noted,List.foldl_append]
      rfl
    rw [hnoted]
    exact (ih (next_ok h).1).next h

/-- The fields of the accumulator of a call. -/
lemma acc_toolUse {o : Opened} (h : o.kind = .toolUse) :
    o.acc.toolName = o.start.name ∧ o.acc.toolID = o.start.id ∧ o.acc.arguments = o.arguments ∧
      o.acc.isSealed = decide (.stop ∈ o.trail) ∧ o.acc.malformedCall = o.malformedCall := by
  have hstart : Accumulator.start o.start =
    { kind := .toolUse, toolID := o.start.id, toolName := o.start.name } := by
    unfold Accumulator.start
    rw [show o.start.kind = .toolUse from h]
  rw [acc_eq,hstart]
  exact ⟨rfl,rfl,rfl,rfl,rfl⟩

/-- A call that settles has a name and an id, and is a malformed one exactly when it was cut off. -/
lemma settle_toolUse {stop : Option StopReason} {o : Opened}
    {here : List ContentBlock × List MalformedCall}
    (hk : o.kind = .toolUse) (h : o.acc.settle stop = .ok here) :
    here = (if o.cut then ([],[o.malformedCall]) else (o.block.toList,[])) ∧
      blank o.start.name = false ∧ blank o.start.id = false := by
  obtain ⟨hname,hid,hargs,hsealed,hmalformed⟩ := acc_toolUse hk
  have hkind : o.acc.kind = .toolUse := by
    rw [acc_eq]
    exact hk
  have hblock : o.block = some (.toolCall o.start.id o.start.name o.arguments) := by
    unfold Opened.block
    rw [hk]
  have hcut : o.cut = !o.acc.complete := by
    unfold Opened.cut Accumulator.complete
    rw [hsealed,hargs]
    simp [hk]
  unfold Accumulator.settle at h
  rw [hkind] at h
  dsimp only at h
  rw [hname,hid,hargs,hmalformed] at h
  split_ifs at h with hn hi hmax hvalid hclosed
  · cases h
    rw [Bool.not_eq_true] at hn hi
    rw [hcut,Bool.not_eq_true _ |>.mp hmax.1]
    exact ⟨rfl,hn,hi⟩
  · cases h
    rw [Bool.not_eq_true] at hn hi
    have hwhole : o.acc.complete = true := by
      rw [Accumulator.complete,hclosed,hargs,hvalid]
      rfl
    rw [hcut,hwhole,hblock]
    exact ⟨rfl,hn,hi⟩

/-- What a block of its own comes to, when it comes to something. -/
lemma settle_acc {stop : Option StopReason} {o : Opened}
    {here : List ContentBlock × List MalformedCall}
    (h : o.acc.settle stop = .ok here) :
    here = (if o.cut then ([],[o.malformedCall]) else (o.block.toList,[])) ∧
      (o.kind = .toolUse → blank o.start.name = false ∧ blank o.start.id = false) := by
  by_cases htool : o.kind = .toolUse
  · obtain ⟨hhere,hblank⟩ := settle_toolUse htool h
    exact ⟨hhere,fun _ => hblank⟩
  · have hcut : o.cut = false := by
      unfold Opened.cut
      simp [htool]
    refine ⟨?_,fun hk => absurd hk htool⟩
    rw [hcut,if_neg (by simp)]
    rw [acc_eq] at h
    unfold Accumulator.settle Accumulator.start at h
    unfold Opened.block
    unfold Opened.kind at h htool ⊢
    cases hk : o.start.kind with
    | toolUse => exact absurd hk htool
    | _ =>
      rw [hk] at h
      cases h
      simp

/-- The blocks and the malformed calls of a message, from the opened blocks. -/
lemma assemble_opened {os : List Opened} (hget : ∀ o ∈ os, s.blocks.get o.index = some o.acc)
    {r : List ContentBlock × List MalformedCall} (h : s.assemble (os.map Opened.index) = .ok r) :
    r.1 = (os.filter (fun o => !o.cut)).flatMap (fun o => o.block.toList) ∧
    r.2 = (os.filter Opened.cut).map Opened.malformedCall ∧
    ∀ o ∈ os, o.kind = .toolUse → blank o.start.name = false ∧ blank o.start.id = false := by
  induction os generalizing r with
  | nil =>
    cases h
    simp
  | cons o os ih =>
    rw [List.map_cons,assemble,hget o List.mem_cons_self] at h
    dsimp only at h
    obtain ⟨here,hhere,h⟩ := bind_ok h
    obtain ⟨later,hlater,h⟩ := bind_ok h
    cases h
    obtain ⟨hfirst,hsecond,hrest⟩ := ih (fun o' ho' => hget o' (List.mem_cons_of_mem o ho')) hlater
    obtain ⟨hset,hcall⟩ := settle_acc hhere
    rw [hfirst,hsecond,hset]
    refine ⟨?_,?_,?_⟩
    · cases hcut : o.cut <;> simp [hcut]
    · cases hcut : o.cut <;> simp [hcut]
    · intro o' ho'
      cases List.mem_cons.mp ho' with
      | inl he =>
        rw [he]
        exact hcall
      | inr hmem => exact hrest o' hmem

lemma assemble_congr (hblocks : s'.blocks = s.blocks) (hstop : s'.stopReason = s.stopReason)
    (order : List ℤ) :
    s'.assemble order = s.assemble order := by
  induction order with
  | nil => rfl
  | cons index rest ih => rw [assemble,assemble,hblocks,hstop,ih]

lemma response_ok {r : Response} (h : s.response = .ok r) : s.failure = none ∧
    ∃ settled, s.assemble s.order = .ok settled ∧ r.message.content = settled.1 ∧
    r.malformed = settled.2 := by
  unfold response at h
  cases hf : s.failure with
  | some err =>
    rw [hf] at h
    cases h
  | none =>
    rw [hf] at h
    dsimp only at h
    split_ifs at h with hdone hstop
    obtain ⟨settled,hsettled,h⟩ := bind_ok h
    cases h
    exact ⟨rfl,settled,hsettled,rfl,rfl⟩

/-- A response is settled by a stream that did not fail. -/
lemma response_eof {r : Response} (h : s.eof.response = .ok r) : s.failure = none ∧
    ∃ settled, s.assemble s.order = .ok settled ∧ r.message.content = settled.1 ∧
    r.malformed = settled.2 := by
  have hsame : s.eof.blocks = s.blocks ∧ s.eof.stopReason = s.stopReason ∧ s.eof.order = s.order ∧
      (s.eof.failure = none → s.failure = none) := by
    unfold eof
    split_ifs with hf hstop
    · exact ⟨rfl,rfl,rfl,id⟩
    · exact ⟨rfl,rfl,rfl,id⟩
    · refine ⟨rfl,rfl,rfl,?_⟩
      intro hno
      cases hno
  obtain ⟨hblocks,hstop,horder,hfailure⟩ := hsame
  obtain ⟨hnone,settled,hsettled,hrest⟩ := response_ok h
  rw [assemble_congr hblocks hstop,horder] at hsettled
  exact ⟨hfailure hnone,settled,hsettled,hrest⟩

end Stream

/-- Each block received only what it has a place for. -/
def Fitting (frames : List Frame) : Prop := ∀ o ∈ opened frames, ∀ m ∈ o.trail, m.fits o.kind = true

/-- A response is what the stream opened: each opened block is in the message, or among the
malformed calls if it was cut off, in order and with its own deltas; nothing a block received is
left out; a call has a name, an id and an object for its arguments, and was closed behind them; and
at every moment the bytes on the account are those the blocks hold. -/
structure Settled (s : Stream) (frames : List Frame) (r : Response) : Prop where
  blocks : r.message.content.map some = ((opened frames).filter (fun o => !o.cut)).map Opened.block
  malformed : r.malformed = ((opened frames).filter Opened.cut).map Opened.malformedCall
  whole : Fitting frames
  calls : ∀ o ∈ opened frames, o.kind = .toolUse → o.cut = false →
    blank o.start.name = false ∧ blank o.start.id = false ∧ o.ClosedLast ∧ o.ArgumentsObject
  retained : ∀ n, (s.run (frames.take n)).retained = (s.run (frames.take n)).heldBytes

/-- Frames that open each index once and only blocks of known kinds, send each block what it has a
place for, and send a call that is closed no arguments behind that and none but an object. -/
structure Orderly (frames : List Frame) : Prop where
  distinct : ((opened frames).map Opened.index).Nodup
  known : ∀ o ∈ opened frames, ∀ name, o.kind ≠ .other name
  fits : Fitting frames
  closing : ∀ o ∈ opened frames, o.kind = .toolUse → .stop ∈ o.trail →
    jsonValid o.arguments = true →
    o.ClosedLast ∧ o.ArgumentsObject

section settled
variable {frames : List Frame}

lemma cut_iff {o : Opened} (hk : o.kind = .toolUse) :
    o.cut = false ↔ .stop ∈ o.trail ∧ jsonValid o.arguments = true := by
  unfold Opened.cut
  simp [hk]

lemma block_isSome {o : Opened} (h : ∀ name, o.kind ≠ .other name) : ∃ b, o.block = some b := by
  unfold Opened.block
  cases hk : o.kind with
  | other name => exact absurd hk (h name)
  | _ => exact ⟨_,rfl⟩

lemma blocks_of_known {os : List Opened} (h : ∀ o ∈ os, ∀ name, o.kind ≠ .other name) :
    (os.flatMap (fun o => o.block.toList)).map some = os.map Opened.block := by
  induction os with
  | nil => rfl
  | cons o os ih =>
    obtain ⟨b,hb⟩ := block_isSome (h o List.mem_cons_self)
    rw [List.flatMap_cons,List.map_append,ih (fun o' ho' => h o' (List.mem_cons_of_mem o ho')),
      List.map_cons,hb]
    rfl

lemma note_index (os : List Opened) (f : Frame) :
    os.map Opened.index <:+ (note os f).map Opened.index := by
  unfold note
  cases f with
  | undecodable => exact List.suffix_rfl
  | event ev =>
    dsimp only
    split
    · cases ev.contentBlock with
      | none => exact List.suffix_rfl
      | some b => exact List.suffix_cons _ _
    · cases ev.delta with
      | none => exact List.suffix_rfl
      | some d =>
        dsimp only
        rw [Stream.mark_index]
    · rw [Stream.mark_index]
    · exact List.suffix_rfl

/-- What is opened stays opened. -/
lemma noted_take_index (n : ℕ) :
    (noted (frames.take n)).map Opened.index <:+ (noted frames).map Opened.index := by
  have hgrow : ∀ (fs : List Frame) os,
    os.map Opened.index <:+ (fs.foldl note os).map Opened.index := by
    intro fs
    induction fs with
    | nil =>
      intro os
      exact List.suffix_rfl
    | cons f fs ih =>
      intro os
      exact (note_index os f).trans (ih (note os f))
  have hsplit : noted frames = (frames.drop n).foldl note (noted (frames.take n)) := by
    rw [noted,noted,← List.foldl_append,List.take_append_drop]
  rw [hsplit]
  exact hgrow (frames.drop n) _

/-- With each index opened once, the table has every opened block. -/
lemma get_opened {s : Stream} (h : s.Holds (noted frames))
    (hn : ((opened frames).map Opened.index).Nodup) :
    ∀ o ∈ opened frames, s.blocks.get o.index = some o.acc := by
  intro o ho
  have hmem : o ∈ noted frames := List.mem_reverse.mp ho
  have hnodup : ((noted frames).map Opened.index).Nodup := by
    rw [opened,List.map_reverse,List.nodup_reverse] at hn
    exact hn
  rw [h.blocks]
  have hfind : (noted frames).find? (fun o' => o'.index = o.index) = some o := by
    cases hf : (noted frames).find? (fun o' => o'.index = o.index) with
    | none =>
      have := List.find?_eq_none.mp hf o hmem
      simp at this
    | some o' =>
      have hi := List.find?_some hf
      rw [decide_eq_true_eq] at hi
      rw [List.inj_on_of_nodup_map hnodup (List.mem_of_find?_eq_some hf) hmem hi]
  rw [hfind]
  rfl

end settled

/-- For every sequence of frames that settles, the response is what the stream opened exactly when
the frames are orderly. -/
theorem settled_iff_orderly (model : String) (most : ℤ) (frames : List Frame) (r : Response)
    (h : ((Stream.new model most).run frames).eof.response = .ok r) :
    Settled (Stream.new model most) frames r ↔ Orderly frames := by
  obtain ⟨hok,settled,hsettled,hcontent,hmalformed⟩ := Stream.response_eof h
  have hholds := Stream.run_holds hok
  have horder : ((Stream.new model most).run frames).order = (opened frames).map Opened.index := by
    rw [hholds.order,opened,List.map_reverse]
  rw [horder] at hsettled
  constructor
  · intro hs
    have hn : ((opened frames).map Opened.index).Nodup := by
      by_contra hdup
      rw [opened,List.map_reverse,List.nodup_reverse] at hdup
      have hover := hholds.retained.2 hdup
      have heq := hs.retained frames.length
      rw [List.take_length] at heq
      omega
    refine ⟨hn,?_,hs.whole,?_⟩
    · intro o ho name hk
      have hcut : o.cut = false := by
        unfold Opened.cut
        simp [hk]
      have hmem : o.block ∈ ((opened frames).filter (fun o => !o.cut)).map Opened.block :=
        List.mem_map.mpr ⟨o,List.mem_filter.mpr ⟨ho,by rw [hcut]; rfl⟩,rfl⟩
      rw [← hs.blocks] at hmem
      obtain ⟨b,_,hb⟩ := List.mem_map.mp hmem
      unfold Opened.block at hb
      rw [hk] at hb
      cases hb
    · intro o ho hk hstop hvalid
      exact (hs.calls o ho hk ((cut_iff hk).mpr ⟨hstop,hvalid⟩)).2.2
  · intro ho
    obtain ⟨hblocks,hcut,hnamed⟩ := Stream.assemble_opened (get_opened hholds ho.distinct) hsettled
    refine ⟨?_,?_,ho.fits,?_,?_⟩
    · rw [hcontent,hblocks]
      apply blocks_of_known
      intro o hmem
      exact ho.known o (List.mem_filter.mp hmem).1
    · rw [hmalformed,hcut]
    · intro o hmem hk hnot
      obtain ⟨hname,hid⟩ := hnamed o hmem hk
      obtain ⟨hstop,hvalid⟩ := (cut_iff hk).mp hnot
      exact ⟨hname,hid,ho.closing o hmem hk hstop hvalid⟩
    · intro n
      have hpart := Stream.run_holds (Stream.run_failure_take hok n)
      apply hpart.retained.1
      have hn := ho.distinct
      rw [opened,List.map_reverse,List.nodup_reverse] at hn
      exact (noted_take_index n).sublist.nodup hn

/-- A call opened at an index, with its arguments, and closed. -/
def sampleCall (index : ℤ) (id name args : String) : List Frame := [
  .event { type := some .contentBlockStart, index := index, contentBlock := some { kind := .toolUse, id := id, name := name } },
  .event { type := some .contentBlockDelta, index := index, delta := some { kind := .inputJSON, partialJSON := args } },
  .event { type := some .contentBlockStop, index := index }]

def sampleStop : List Frame := [.event { type := some .messageStop }]

/-- One call. -/
def oneCall : List Frame := sampleCall 0 "t1" "read" "\x7b\x7d" ++ sampleStop

/-- A call, and another one that is opened at the same index. -/
def reopened : List Frame :=
  sampleCall 0 "t1" "read" "\x7b\x7d" ++ sampleCall 0 "t2" "write" "\x7b\x7d" ++ sampleStop

def sampleStream : Stream := .new "model" 0

/-- What a message says, without the arguments of its calls. -/
def callNames (r : Except StreamErr Response) : List (CallID × String) :=
  match r with
  | .ok r => r.message.content.filterMap (fun b => match b with
    | .toolCall id name _ => some (id,name)
    | _ => none)
  | .error _ => []

theorem settled_iff_orderly_one_call :
    ∃ r, (sampleStream.run oneCall).eof.response = .ok r ∧
      (Settled sampleStream oneCall r ↔
        Orderly oneCall) := by
  have hok : (sampleStream.run oneCall).eof.response.toOption.isSome = true := by
    decide
  cases hr : (sampleStream.run oneCall).eof.response with
  | error err =>
    rw [hr] at hok
    cases hok
  | ok r => exact ⟨r,rfl,settled_iff_orderly "model" 0 _ r hr⟩

/-- Two calls opened at one index settle as the second one twice. -/
theorem reopened_call_runs_twice :
    ∃ r, (sampleStream.run reopened).eof.response = .ok r ∧
      callNames (.ok r) = [("t2","write"),("t2","write")] ∧
      ¬ Settled sampleStream reopened r := by
  have hnames : callNames (sampleStream.run reopened).eof.response =
      [("t2","write"),("t2","write")] := by decide
  cases hr : (sampleStream.run reopened).eof.response with
  | error err =>
    rw [hr] at hnames
    cases hnames
  | ok r =>
    rw [hr] at hnames
    refine ⟨r,rfl,hnames,?_⟩
    intro hs
    have heq := hs.retained 7
    revert heq
    decide

end Manvi.Anthropic
