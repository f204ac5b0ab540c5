import Mathlib

/-! Decoding items from the head of a buffer that grows: a decoder that asks for more by consuming
nothing, with a memory of what it has searched, and what a stream decodes to however it is cut. -/
namespace Manvi.Encoding
variable {α β σ : Type}

/-- A decoder with a memory. It gives an item or none, how much it consumed, and the memory it
leaves. -/
structure Decoder (α β σ : Type) where
  fresh : σ
  decode : List α → Bool → σ → Option β × ℕ × σ

/-- What one step took from the buffer, and the item it gave. -/
structure Taken (α β : Type) where
  bytes : List α
  item : Option β
  deriving Repr, DecidableEq

/-- What is held, and the memory for it. -/
structure Held (α σ : Type) where
  held : List α
  memory : σ

/-- What the next of the stream does: more arrives, or waiting for it ends. -/
inductive Turn (α : Type) where
  | chunk (bytes : List α)
  | expired
  deriving Repr, DecidableEq

namespace Decoder
variable (d : Decoder α β σ)

/-- Take what can be decided, for so many items. -/
def drain : ℕ → Held α σ → List (Taken α β) × Held α σ
  | 0,h => ([],h)
  | fuel+1,h =>
    if h.held = [] then ([],h) else
    let (item,n,memory) := d.decode h.held false h.memory
    if n = 0 then ([],⟨h.held,memory⟩) else
    let (ts,h') := drain fuel ⟨h.held.drop n,d.fresh⟩
    (⟨h.held.take n,item⟩ :: ts,h')

/-- Decide everything that is held, letting go of one element where nothing is decided, for so many
steps. -/
def flush : ℕ → Held α σ → List (Taken α β) × Held α σ
  | 0,h => ([],h)
  | fuel+1,h =>
    if h.held = [] then ([],h) else
    let (item,n,memory) := d.decode h.held true h.memory
    if n = 0 then
      let (ts,h') := flush fuel ⟨h.held.tail,memory⟩
      (⟨h.held.take 1,none⟩ :: ts,h')
    else
      let (ts,h') := flush fuel ⟨h.held.drop n,d.fresh⟩
      (⟨h.held.take n,item⟩ :: ts,h')

def turn (h : Held α σ) : Turn α → List (Taken α β) × Held α σ
  | .chunk bytes => d.drain (h.held ++ bytes).length ⟨h.held ++ bytes,h.memory⟩
  | .expired => d.flush h.held.length h

def turns (h : Held α σ) : List (Turn α) → List (Taken α β) × Held α σ
  | [] => ([],h)
  | t :: ts =>
    let (taken,h') := d.turn h t
    let (rest,h'') := turns h' ts
    (taken ++ rest,h'')

/-- A whole run: the turns, and at the end what is left with what had arrived but was not taken
yet. -/
def run (ts : List (Turn α)) (last : List α) : List (Taken α β) :=
  let (taken,h) := d.turns ⟨[],d.fresh⟩ ts
  taken ++ (d.flush (h.held ++ last).length ⟨h.held ++ last,h.memory⟩).1

end Decoder

/-- What a decoder without memory takes of a whole stream, for so many steps. -/
def takeAll (plain : List α → Bool → Option β × ℕ) : ℕ → List α → List (Taken α β)
  | 0,_ => []
  | fuel+1,s =>
    if s = [] then [] else
    let (item,n) := plain s true
    if n = 0 then ⟨s.take 1,none⟩ :: takeAll plain fuel s.tail
      else ⟨s.take n,item⟩ :: takeAll plain fuel (s.drop n)

/-- A decoder whose memory changes nothing, and that decides the same of a buffer whatever is added
to it. -/
structure Decoder.Stable (d : Decoder α β σ) (plain : List α → Bool → Option β × ℕ)
    (Valid : σ → List α → Prop) : Prop where
  fresh : ∀ s, Valid d.fresh s
  same : ∀ (flush : Bool) {s m}, Valid m s →
    ((d.decode s flush m).1,(d.decode s flush m).2.1) = plain s flush
  within : ∀ s flush, (plain s flush).2 ≤ s.length
  grows : ∀ {s m}, Valid m s → ∀ more, Valid m (s ++ more)
  waits : ∀ {s m}, Valid m s → (plain s false).2 = 0 → Valid (d.decode s false m).2.2 s
  drops : ∀ {s m}, Valid m s → (plain s true).2 = 0 → ∀ s', Valid (d.decode s true m).2.2 s'
  stays : ∀ {s} (more : List α) (flush : Bool), (plain s false).2 ≠ 0 →
    plain (s ++ more) flush = plain s false

section stable
variable {d : Decoder α β σ} {plain : List α → Bool → Option β × ℕ} {Valid : σ → List α → Prop}
    {h : Held α σ} {fuel : ℕ} {s : List α}

lemma takeAll_fuel {fuel fuel' : ℕ} (hfuel : s.length ≤ fuel) (hfuel' : s.length ≤ fuel') :
    takeAll plain fuel s = takeAll plain fuel' s := by
  induction fuel generalizing fuel' s with
  | zero =>
    obtain rfl := List.length_eq_zero_iff.mp (Nat.le_zero.mp hfuel)
    cases fuel' with
    | zero => rfl
    | succ fuel' => rfl
  | succ fuel ih =>
    cases fuel' with
    | zero =>
      obtain rfl := List.length_eq_zero_iff.mp (Nat.le_zero.mp hfuel')
      rfl
    | succ fuel' =>
      unfold takeAll
      by_cases hnil : s = []
      · rw [if_pos hnil,if_pos hnil]
      · have hpos := List.length_pos_iff.mpr hnil
        rw [if_neg hnil,if_neg hnil]
        dsimp only
        by_cases hn : (plain s true).2 = 0
        · rw [if_pos hn,if_pos hn]
          refine congrArg _ (ih ?_ ?_)
          · rw [List.length_tail]; omega
          · rw [List.length_tail]; omega
        · rw [if_neg hn,if_neg hn]
          refine congrArg _ (ih ?_ ?_)
          · rw [List.length_drop]; omega
          · rw [List.length_drop]; omega

/-- What a decoder takes of a whole stream. -/
def stream (plain : List α → Bool → Option β × ℕ) (s : List α) : List (Taken α β) :=
  takeAll plain s.length s

lemma stream_step (hs : s ≠ []) {item : Option β} {n : ℕ} (h : plain s true = (item,n))
    (hn : n ≠ 0) :
    stream plain s = ⟨s.take n,item⟩ :: stream plain (s.drop n) := by
  have hpos := List.length_pos_iff.mpr hs
  obtain ⟨len,hlen⟩ : ∃ len, s.length = len+1 := ⟨s.length-1,by omega⟩
  rw [stream,hlen,takeAll,if_neg hs,h]
  dsimp only
  rw [if_neg hn]
  refine congrArg _ (takeAll_fuel ?_ le_rfl)
  rw [List.length_drop]
  omega

lemma stream_drop (hs : s ≠ []) (hn : (plain s true).2 = 0) :
    stream plain s = ⟨s.take 1,none⟩ :: stream plain s.tail := by
  have hpos := List.length_pos_iff.mpr hs
  obtain ⟨len,hlen⟩ : ∃ len, s.length = len+1 := ⟨s.length-1,by omega⟩
  rw [stream,hlen,takeAll,if_neg hs]
  dsimp only
  rw [if_pos hn]
  refine congrArg _ (takeAll_fuel ?_ le_rfl)
  rw [List.length_tail]
  omega

/-- All of a stream is taken, once and in its order. -/
lemma stream_bytes (plain : List α → Bool → Option β × ℕ) (s : List α) :
    (stream plain s).flatMap Taken.bytes = s := by
  induction hlen : s.length using Nat.strong_induction_on generalizing s with
  | _ n ih =>
    by_cases hs : s = []
    · rw [hs]
      rfl
    have hpos := List.length_pos_iff.mpr hs
    by_cases hn : (plain s true).2 = 0
    · rw [stream_drop hs hn,List.flatMap_cons,ih _ (by rw [← hlen,List.length_tail]; omega) _ rfl,
        ← List.drop_one]
      exact List.take_append_drop 1 s
    · rw [stream_step hs rfl hn,List.flatMap_cons,
        ih _ (by rw [← hlen,List.length_drop]; omega) _ rfl]
      exact List.take_append_drop _ s

/-- Flushing takes of what is held all that a stream of it gives. -/
lemma flush_eq (hd : d.Stable plain Valid) (hv : Valid h.memory h.held)
    (hfuel : h.held.length ≤ fuel) :
    (d.flush fuel h).1 = stream plain h.held ∧ (d.flush fuel h).2.held = [] ∧
    Valid (d.flush fuel h).2.memory [] := by
  induction fuel generalizing h with
  | zero =>
    have hnil := List.length_eq_zero_iff.mp (Nat.le_zero.mp hfuel)
    rw [hnil] at hv
    refine ⟨?_,hnil,hv⟩
    rw [hnil]
    rfl
  | succ fuel ih =>
    unfold Decoder.flush
    by_cases hnil : h.held = []
    · rw [hnil] at hv
      rw [if_pos hnil]
      refine ⟨?_,hnil,hv⟩
      rw [hnil]
      rfl
    · have hpos := List.length_pos_iff.mpr hnil
      have hsame := hd.same true hv
      rw [if_neg hnil]
      dsimp only
      by_cases hn : (d.decode h.held true h.memory).2.1 = 0
      · have hplain : (plain h.held true).2 = 0 := by rw [← hsame]; exact hn
        have hrest := ih (h := ⟨h.held.tail,(d.decode h.held true h.memory).2.2⟩)
          (hd.drops hv hplain _)
          (by rw [List.length_tail]; omega)
        rw [if_pos hn,stream_drop hnil hplain]
        exact ⟨congrArg _ hrest.1,hrest.2⟩
      · have hrest := ih (h := ⟨h.held.drop (d.decode h.held true h.memory).2.1,d.fresh⟩)
          (hd.fresh _)
          (by rw [List.length_drop]; omega)
        rw [if_neg hn,stream_step hnil hsame.symm hn]
        exact ⟨congrArg _ hrest.1,hrest.2⟩

/-- Draining takes the first of what any stream that goes on from there gives. -/
lemma drain_eq (hd : d.Stable plain Valid) (hv : Valid h.memory h.held) (fuel : ℕ) :
    (∀ more, stream plain (h.held ++ more) = (d.drain fuel h).1 ++
      stream plain ((d.drain fuel h).2.held ++ more))
      ∧ Valid (d.drain fuel h).2.memory (d.drain fuel h).2.held := by
  induction fuel generalizing h with
  | zero => exact ⟨fun _ => rfl,hv⟩
  | succ fuel ih =>
    unfold Decoder.drain
    by_cases hnil : h.held = []
    · rw [if_pos hnil]
      exact ⟨fun _ => rfl,hv⟩
    · have hsame := hd.same false hv
      rw [if_neg hnil]
      dsimp only
      by_cases hn : (d.decode h.held false h.memory).2.1 = 0
      · have hplain : (plain h.held false).2 = 0 := by rw [← hsame]; exact hn
        rw [if_pos hn]
        exact ⟨fun _ => rfl,hd.waits hv hplain⟩
      · have hplain : (plain h.held false).2 ≠ 0 := by rw [← hsame]; exact hn
        obtain ⟨hrest,hvalid⟩ := ih (h := ⟨h.held.drop (d.decode h.held false h.memory).2.1,
          d.fresh⟩) (hd.fresh _)
        rw [if_neg hn]
        refine ⟨fun more => ?_,hvalid⟩
        have hlong : plain (h.held ++ more) true = ((d.decode h.held false h.memory).1,
          (d.decode h.held false h.memory).2.1) := by
          rw [hd.stays more true hplain,hsame]
        have hle := hd.within h.held false
        rw [← hsame] at hle
        rw [stream_step (by simp [hnil]) hlong hn,List.take_append_of_le_length hle,
          List.drop_append_of_le_length hle,hrest]
        rfl

lemma turn_chunk_eq (hd : d.Stable plain Valid) (hv : Valid h.memory h.held) (bytes : List α) :
    (∀ more, stream plain (h.held ++ bytes ++ more) = (d.turn h (.chunk bytes)).1 ++
      stream plain ((d.turn h (.chunk bytes)).2.held ++ more))
      ∧ Valid (d.turn h (.chunk bytes)).2.memory (d.turn h (.chunk bytes)).2.held :=
  drain_eq (h := ⟨h.held ++ bytes,h.memory⟩) hd (hd.grows hv bytes) _

lemma turn_valid (hd : d.Stable plain Valid) (hv : Valid h.memory h.held) (t : Turn α) :
    Valid (d.turn h t).2.memory (d.turn h t).2.held := by
  cases t with
  | chunk bytes => exact (turn_chunk_eq hd hv bytes).2
  | expired =>
    obtain ⟨_,hheld,hmemory⟩ := flush_eq hd hv le_rfl
    rw [Decoder.turn,hheld]
    exact hmemory

lemma turns_valid (hd : d.Stable plain Valid) (hv : Valid h.memory h.held) (ts : List (Turn α)) :
    Valid (d.turns h ts).2.memory (d.turns h ts).2.held := by
  induction ts generalizing h with
  | nil => exact hv
  | cons t ts ih => exact ih (turn_valid hd hv t)

/-- The stream cut where waiting for more ended, behind what is already held. -/
def segments (held : List α) : List (Turn α) → List α → List (List α)
  | [],last => [held ++ last]
  | .chunk bytes :: ts,last => segments (held ++ bytes) ts last
  | .expired :: ts,last => held :: segments [] ts last

/-- What is taken of the first segment once is not taken again. -/
lemma segments_taken {s s' : List α} {taken : List (Taken α β)}
    (h : ∀ more, stream plain (s ++ more) = taken ++ stream plain (s' ++ more)) (ts : List (Turn α))
    (last : List α) :
    (segments s ts last).flatMap (stream plain) = taken ++
    (segments s' ts last).flatMap (stream plain) := by
  induction ts generalizing s s' with
  | nil =>
    rw [segments,segments,List.flatMap_singleton,List.flatMap_singleton]
    exact h last
  | cons t ts ih => cases t with
    | chunk bytes =>
      refine ih (fun more => ?_)
      rw [List.append_assoc,List.append_assoc]
      exact h (bytes ++ more)
    | expired =>
      have hnow := h []
      rw [List.append_nil,List.append_nil] at hnow
      rw [segments,segments,List.flatMap_cons,List.flatMap_cons,hnow,List.append_assoc]

lemma turns_segments (hd : d.Stable plain Valid) (hv : Valid h.memory h.held) (ts : List (Turn α))
    (last : List α) :
    (segments h.held ts last).flatMap (stream plain)
      = (d.turns h ts).1 ++ stream plain ((d.turns h ts).2.held ++ last) := by
  induction ts generalizing h with
  | nil => rw [segments,List.flatMap_singleton]; rfl
  | cons t ts ih =>
    have hrest := ih (turn_valid hd hv t)
    rw [Decoder.turns]
    dsimp only
    rw [List.append_assoc,← hrest]
    cases t with
    | chunk bytes => exact segments_taken (turn_chunk_eq hd hv bytes).1 ts last
    | expired =>
      obtain ⟨htaken,hheld,-⟩ := flush_eq hd hv le_rfl
      rw [Decoder.turn,htaken,hheld]
      rfl

/-- A run takes each segment on its own, as a stream. -/
theorem run_segments (hd : d.Stable plain Valid) (ts : List (Turn α)) (last : List α) :
    d.run ts last = (segments [] ts last).flatMap (stream plain) := by
  have hall := turns_segments (h := ⟨[],d.fresh⟩) hd (hd.fresh _) ts last
  have hvalid := turns_valid (h := ⟨[],d.fresh⟩) hd (hd.fresh _) ts
  have hend := flush_eq hd (hd.grows hvalid last) le_rfl (h := ⟨(d.turns ⟨[],d.fresh⟩ ts).2.held ++
    last,(d.turns ⟨[],d.fresh⟩ ts).2.memory⟩)
  rw [hall,← hend.1]
  rfl

lemma segments_chunks (held : List α) (chunks : List (List α)) (last : List α) :
    segments held (chunks.map .chunk) last = [held ++ chunks.flatten ++ last] := by
  induction chunks generalizing held with
  | nil => rw [List.flatten_nil,List.append_nil]; rfl
  | cons c chunks ih => rw [List.map_cons,segments,ih,List.flatten_cons,← List.append_assoc]

/-- A stream is decoded the same however it is cut, as long as nothing expires before its end. -/
theorem run_chunks (hd : d.Stable plain Valid) (chunks : List (List α)) (last : List α) :
    d.run (chunks.map .chunk) last = stream plain (chunks.flatten ++ last) := by
  rw [run_segments hd,segments_chunks,List.nil_append,List.flatMap_singleton]

end stable
end Manvi.Encoding
