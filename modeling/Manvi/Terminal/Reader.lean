import Manvi.Terminal.Stable

/-! The reader's loop: chunks of input as they are read, the grace period that may end, and the end
of the input. -/
namespace Manvi.Terminal
open Manvi.Encoding

/-- Decoding with what is remembered of a paste, forgotten when bytes are consumed. -/
def reader : Decoder UInt8 Event PasteScan := ⟨some 0,decodeAt⟩

/-- The events of a whole run. The turns are the chunks taken and the grace periods that ended; at
the end of the input some chunks may have been handed over and not taken yet. -/
def run (turns : List (Turn UInt8)) (last : Bytes) (err : String) : List Event :=
  (reader.run turns last).filterMap Taken.item ++ [.error err]

/-- The events of a stream decoded at once. -/
def events (s : Bytes) : List Event := (stream decode s).filterMap Taken.item

lemma searched_append {m : PasteScan} {s : Bytes} (h : Searched m s) (more : Bytes) :
    Searched m (s ++ more) := by
  obtain rfl | ⟨k,rfl,hp,hle,hnone⟩ := h
  · exact Or.inl rfl
  · have hrest : (s ++ more).drop pasteStart.length = s.drop pasteStart.length ++ more :=
      List.drop_append_of_le_length hp.length_le
    refine Or.inr ⟨k,rfl,hp.trans (List.prefix_append _ _),?_,fun i hi hstands => hnone i hi ?_⟩
    · rw [hrest,List.length_append]
      omega
    · rw [hrest] at hstands
      exact stands_of_append hstands (by omega)

/-- A search that found nothing is remembered in whole, and there is no event. -/
lemma decodePaste_waits {m : PasteScan} {s : Bytes} {flush : Bool} (hp : pasteStart <+: s)
    (h : (decodePaste s flush m).2.1 = 0) :
    flush = false ∧ decodePaste s flush m = (none,0,
      m.map (fun _ => (s.drop pasteStart.length).length)) := by
  have hlen := hp.length_le
  unfold decodePaste at h ⊢
  dsimp only at h ⊢
  split at h
  · cases flush with
    | true =>
      have hnil : s.length = 0 := h
      rw [hnil] at hlen
      cases hlen
    | false => exact ⟨rfl,rfl⟩
  · exact absurd h (by simp [pasteStart])

lemma searched_waits {m : PasteScan} {s : Bytes} (h : Searched m s)
    (hzero : (decode s false).2 = 0) : Searched (decodeAt s false m).2.2 s := by
  by_cases hp : pasteStart <+: s
  · have hsame := @decodeAt_searched _ _ false h
    rw [decodeAt_paste hp] at hsame ⊢
    obtain ⟨-,heq⟩ := @decodePaste_waits m _ false hp (by rw [← hsame] at hzero; exact hzero)
    have hnone : index (s.drop pasteStart.length) pasteEnd = none := by
      rw [decode_paste hp] at hzero
      cases hi : index (s.drop pasteStart.length) pasteEnd with
      | none => rfl
      | some i => rw [hi] at hzero; exact absurd hzero (by simp [pasteStart])
    rw [heq]
    have hsome : ∃ k, m = some k := by
      obtain rfl | ⟨k,rfl,_⟩ := h
      · exact ⟨0,rfl⟩
      · exact ⟨k,rfl⟩
    obtain ⟨k,rfl⟩ := hsome
    exact Or.inr ⟨_,rfl,hp,le_rfl,fun i _ => (index_eq_none pasteEnd_ne).mp hnone i⟩
  · rw [decodeAt_plain hp]
    exact h

lemma searched_drops {m : PasteScan} {s : Bytes} (h : Searched m s) (hzero : (decode s true).2 = 0)
    (s' : Bytes) :
    Searched (decodeAt s true m).2.2 s' := by
  have hp : ¬ pasteStart <+: s := by
    intro hp
    have hsame := @decodeAt_searched _ _ true h
    rw [decodeAt_paste hp] at hsame
    rw [← hsame] at hzero
    exact absurd (decodePaste_waits hp hzero).1 (by decide)
  rw [decodeAt_plain hp]
  obtain rfl | ⟨_,_,hpaste,_⟩ := h
  · exact Or.inl rfl
  · exact absurd hpaste hp

lemma reader_stable : reader.Stable decode Searched where
  fresh _ := Or.inl rfl
  same _ _ _ hv := decodeAt_searched hv
  within := decode_within
  grows hv more := searched_append hv more
  waits hv hzero := searched_waits hv hzero
  drops hv hzero s' := searched_drops hv hzero s'
  stays more flush hn := decode_stays more flush hn

lemma decodeAt_zero {s : Bytes} {flush : Bool} {m : PasteScan} (h : (decodeAt s flush m).2.1 = 0) :
    (decodeAt s flush m).1 = none := by
  by_cases hp : pasteStart <+: s
  · rw [decodeAt_paste hp] at h ⊢
    rw [(decodePaste_waits hp h).2]
  · rw [decodeAt_plain hp] at h ⊢
    exact decode_zero h

/-- The events do not depend on how the stream was cut into reads. What is decoded stays decoded,
what is remembered of a paste finds the closing marker that a search from the start finds, and where
nothing is consumed there is no event. -/
theorem input_cut_independent (err : String) :
    (∀ (chunks : List Bytes) (last : Bytes),
      run (chunks.map .chunk) last err = events (chunks.flatten ++ last) ++ [.error err])
      ∧ (∀ (s more : Bytes) (flush : Bool), (decode s false).2 ≠ 0 →
        decode (s ++ more) flush = decode s false)
      ∧ (∀ (turns : List (Turn UInt8)) (more : Bytes) (flush : Bool),
          let h := (reader.turns ⟨[],some 0⟩ turns).2
          ((decodeAt (h.held ++ more) flush h.memory).1,
            (decodeAt (h.held ++ more) flush h.memory).2.1) = decode (h.held ++ more) flush)
      ∧ (∀ (s : Bytes) (flush : Bool) (scan : PasteScan), (decodeAt s flush scan).2.1 = 0 →
        (decodeAt s flush scan).1 = none) := by
  refine ⟨fun chunks last => ?_,fun s more flush hn => decode_stays more flush hn,
    fun turns more flush => ?_,fun s flush scan hzero => ?_⟩
  · rw [run,run_chunks reader_stable,events]
  · have hvalid := turns_valid (h := ⟨[],some 0⟩) reader_stable (Or.inl rfl) turns
    exact decodeAt_searched (searched_append hvalid more)
  · exact decodeAt_zero hzero

end Manvi.Terminal
