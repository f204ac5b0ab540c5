import Manvi.Encoding.Veiled
import Manvi.Encoding.Space

/-! Watched values in a text, and what their replacement leaves of them. -/
namespace Manvi.Computer
open Manvi.Encoding

/-- What stands for a watched value. -/
def redacted : Bytes := ascii "[redacted]"

/-- One pass of the scrub. -/
def scrubOne (s secret : Bytes) : Bytes :=
  if secret ≠ [] then replaceAll id secret redacted s else s

def scrub (watched : List Bytes) (s : Bytes) : Bytes := watched.foldl scrubOne s

/-! Where the bytes of the result come from. -/

/-- A byte, with its place in the text when it is from there. -/
abbrev Cell := UInt8 × Option ℕ

/-- The text with the places of its bytes. -/
def cells (text : Bytes) : List Cell := text.zipIdx.map (fun e => (e.1,some e.2))

/-- A pass of the scrub that keeps the places. -/
def scrubCell (s : List Cell) (secret : Bytes) : List Cell :=
  if secret ≠ [] then replaceAll Prod.fst secret (redacted.map (fun b => (b,none))) s else s

def scrubCells (watched : List Bytes) (s : List Cell) : List Cell := watched.foldl scrubCell s

/-- The place is inside an occurrence of a watched value. -/
def Inside (watched : List Bytes) (text : Bytes) (p : ℕ) : Prop :=
  ∃ v ∈ watched, ∃ i, v <+: text.drop i ∧ i ≤ p ∧ p < i+v.length

section cells
variable {s : List Cell} {v : Bytes} {p : ℕ} {watched : List Bytes} {text : Bytes}

/-- The places that are still there. -/
def places (s : List Cell) : List ℕ := s.filterMap Prod.snd

/-- The result does not depend on the places. -/
theorem map_scrubCells (watched : List Bytes) (s : List Cell) :
    (scrubCells watched s).map Prod.fst = scrub watched (s.map Prod.fst) := by
  have hnew : (redacted.map (fun b => ((b,none) : Cell))).map Prod.fst = redacted := by
    rw [List.map_map]
    exact List.map_id _
  induction watched generalizing s with
  | nil => rfl
  | cons v watched ih =>
    have hone : (scrubCell s v).map Prod.fst = scrubOne (s.map Prod.fst) v := by
      unfold scrubCell scrubOne
      split_ifs
      · rw [map_replaceAll,hnew]
      · rfl
    rw [scrubCells,List.foldl_cons,scrub,List.foldl_cons,← hone]
    exact ih _

@[simp] lemma mem_places : p ∈ places s ↔ ∃ b, (b,some p) ∈ s := by
  simp [places]

end cells

end Manvi.Computer
