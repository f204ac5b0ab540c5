import Manvi.Agent.Notice
import Manvi.Agent.Reach

/-! What a compaction plan could still have reclaimed when it is marked insufficient. -/
namespace Manvi.Agent
open Manvi.LLM Manvi.Session

section results
variable {imageSize : List UInt8 → Option (ℕ × ℕ)}

variable (imageSize)

/-- What a floor reclaims of the results whose prices fall there. -/
def best (floor : ℤ) (results : List (List ContentBlock)) : ℤ :=
  (results.map (fun content => max 0 (lowering imageSize floor content))).sum

variable {imageSize}

lemma lowering_cut {floor : ℤ} {content : List ContentBlock} (hnone : pictures content = [])
    (hshort : size (compactToolResultText (joinedText content) floor) < size (joinedText content)) :
    lowering imageSize floor content = cutWorth (joinedText content) floor := by
  rw [← estimate_cut hshort,lowering,price,replacement,if_pos hnone,hnone]
  simp

end results
namespace Planning
variable (p : Planning)

/-- Planning without a calibrator: an estimate stands as it is. -/
def plain (systemPrompt : String) (tools : List ToolSchema) (budget : Budget)
    (imageSize : List UInt8 → Option (ℕ × ℕ)) : Planning := ⟨systemPrompt,tools,budget,id,imageSize⟩

/-- How far a history is over the threshold, and over the target below it. -/
def excess (messages : List Message) : ℤ :=
  countRequestTokens p.imageSize p.systemPrompt p.tools messages-p.budget.threshold

def need (messages : List Message) : ℤ :=
  countRequestTokens p.imageSize p.systemPrompt p.tools messages-p.budget.target

variable {p}

/-- The plan for a history over the threshold, by the stretch at the floor in force: it is
sufficient where that stretch saves the excess. -/
lemma plan_stretch (hscale : p.scale = id) {messages : List Message} {already : List CallID}
    {done : List ResultKey}
    (hover : 0 < p.excess messages) {floor : ℤ} {taken : List (List ContentBlock)}
    (hforce : InForce p.imageSize (p.need messages) (compactible messages already done) floor)
    (htaken : Stretch p.imageSize floor (p.need messages)
      (compactible messages already done) taken) :
    (p.planCompactionCalibrated messages already done).steps =
        (p.shrunk floor ((openResults messages already done).take taken.length)).map
        (stepFor floor) ∧
      (p.planCompactionCalibrated messages already done).before =
        countRequestTokens p.imageSize p.systemPrompt p.tools messages ∧
      (p.planCompactionCalibrated messages already done).after =
        countRequestTokens p.imageSize p.systemPrompt p.tools messages-
        saving p.imageSize floor taken ∧
      ((p.planCompactionCalibrated messages already done).insufficient = true ↔
        saving p.imageSize floor taken < p.excess messages) := by
  have hchosen := hforce.unique (chooseFloor_inForce hscale (p.need messages)
    (openResults messages already done))
  have hsteps := @takeSteps_stretch p hscale floor (p.need messages) 0 _ taken
    (by rw [sub_zero]; exact htaken)
  unfold planCompactionCalibrated
  rw [eligible_eq,hscale]
  dsimp only [id_eq]
  rw [if_neg (by unfold excess at hover; omega)]
  split
  next hempty =>
    have hnil : openResults messages already done = [] := by simpa using hempty
    have hnone : taken = [] := by
      have hopens := htaken.opens
      rw [compactible,hnil] at hopens
      exact List.prefix_nil.mp hopens
    rw [hnone,hnil,saving_nil,sub_zero]
    exact ⟨rfl,rfl,rfl,fun _ => hover,fun _ => rfl⟩
  next =>
    rw [hchosen] at hsteps ⊢
    unfold need at hsteps
    rw [hsteps,zero_add]
    refine ⟨rfl,rfl,rfl,?_⟩
    unfold need excess
    simp only [decide_eq_true_eq]
    omega

/-- A picture that no decoder reads. -/
def picture : Message := ⟨.user,[.image "image/png" []],none⟩

/-- A result of one long word, a result that is a picture, and a protected tail with another
picture. -/
def lossyHistory : List Message :=
  ⟨.user,[.toolResult "word" [.text (String.ofList (List.replicate 170 'a'))] false,
    .toolResult "shot" [.image "image/png" []] false],none⟩ ::
  List.replicate 5 ⟨.user,[.text "x"],none⟩ ++ [picture]

end Planning
end Manvi.Agent
