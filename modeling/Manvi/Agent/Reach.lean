import Manvi.Agent.Floors
import Manvi.Agent.OneWay

/-! What a compaction plan comes to, told by the texts and the pictures of the results and by a
need. -/
namespace Manvi.Agent
open Manvi.LLM Manvi.Session

/-- The texts of a result, joined. -/
def joinedText (content : List ContentBlock) : String :=
  String.join (content.filterMap (fun b => match b with | .text t => some t | _ => none))

def pictures (content : List ContentBlock) : List (List UInt8) :=
  content.filterMap (fun b => match b with | .image _ data => some data | _ => none)

@[simp] lemma mem_compactFloors {floor : ℤ} :
    floor ∈ compactFloors ↔ floor = 1200 ∨ floor = 400 ∨ floor = 120 := by
  simp [compactFloors]

/-- What a result is replaced with at a floor: its text cut, and a notice for its pictures. -/
def replacement (floor : ℤ) (content : List ContentBlock) : String :=
  let short := compactToolResultText (joinedText content) floor
  if pictures content = [] then short else withImageNotice short (pictures content).length

section results
variable (imageSize : List UInt8 → Option (ℕ × ℕ))

/-- What a result is priced at: its texts joined, and its pictures. -/
def price (content : List ContentBlock) : ℤ :=
  estimateTokens (joinedText content)+((pictures content).map (imageTokens imageSize)).sum

/-- What the price of a result falls by at a floor. -/
def lowering (floor : ℤ) (content : List ContentBlock) : ℤ :=
  price imageSize content-estimateTokens (replacement floor content)

/-- A text is shortened where that saves bytes. Pictures are removed where that lowers the price. -/
def Shrinks (floor : ℤ) (content : List ContentBlock) : Prop :=
  if pictures content = [] then size (replacement floor content) < size (joinedText content)
  else 0 < lowering imageSize floor content

instance (floor : ℤ) (content : List ContentBlock) :
    Decidable (Shrinks imageSize floor content) := by
  unfold Shrinks
  infer_instance

/-- What shortening a result at a floor saves, where it is done. -/
def saved (floor : ℤ) (content : List ContentBlock) : ℤ :=
  if Shrinks imageSize floor content then lowering imageSize floor content else 0

def saving (floor : ℤ) (results : List (List ContentBlock)) : ℤ :=
  (results.map (saved imageSize floor)).sum

/-- What the prices of some results fall by at a floor, were all of them shortened. -/
def fall (floor : ℤ) (results : List (List ContentBlock)) : ℤ :=
  (results.map (lowering imageSize floor)).sum

/-- The widest floor at which the prices of all results fall by a need, or the tightest one where
they do at none. -/
inductive InForce (need : ℤ) (results : List (List ContentBlock)) (floor : ℤ) : Prop
  | widest (hfloor : floor ∈ compactFloors) (hcovers : need ≤ fall imageSize floor results)
      (hwider : ∀ wider ∈ compactFloors, floor < wider → fall imageSize wider results < need)
  | tightest (hfloor : floor = 120)
      (hnone : ∀ other ∈ compactFloors, fall imageSize other results < need)

/-- The results that are taken for a need, in order: no fewer save as much, and all are taken where
these do not. -/
structure Stretch (floor need : ℤ) (results taken : List (List ContentBlock)) : Prop where
  opens : taken <+: results
  fewer : ∀ ks, ks <+: taken → ks ≠ taken → saving imageSize floor ks < need
  enough : taken = results ∨ need ≤ saving imageSize floor taken

variable {imageSize}

@[simp] lemma saving_nil (floor : ℤ) : saving imageSize floor [] = 0 := rfl

@[simp] lemma saving_cons (floor : ℤ) (r : List ContentBlock) (rs : List (List ContentBlock)) :
    saving imageSize floor (r :: rs) = saved imageSize floor r+saving imageSize floor rs := by
  simp [saving]

/-- Where the need is met already, nothing is taken. -/
lemma Stretch.met {floor need : ℤ} {results taken : List (List ContentBlock)}
    (h : Stretch imageSize floor need results taken) (hmet : need ≤ 0) : taken = [] := by
  by_contra hne
  have hless := h.fewer [] List.nil_prefix (Ne.symm hne)
  rw [saving_nil] at hless
  omega

/-- Where it is not, the first result is taken, and the rest for what it leaves of the need. -/
lemma Stretch.unmet {floor need : ℤ} {r : List ContentBlock} {rs taken : List (List ContentBlock)}
    (h : Stretch imageSize floor need (r :: rs) taken) (hneed : 0 < need) :
    ∃ more, taken = r :: more ∧ Stretch imageSize floor (need-saved imageSize floor r) rs more := by
  cases taken with
  | nil =>
    obtain hall | henough := h.enough
    · cases hall
    · rw [saving_nil] at henough
      omega
  | cons s more =>
    obtain ⟨rfl,hopens⟩ := List.cons_prefix_cons.mp h.opens
    refine ⟨more,rfl,hopens,?_,?_⟩
    · intro ks hks hne
      have hless := h.fewer (s :: ks) (List.cons_prefix_cons.mpr ⟨rfl,hks⟩) (by simpa using hne)
      rw [saving_cons] at hless
      omega
    · obtain hall | henough := h.enough
      · exact .inl (List.cons.inj hall).2
      · rw [saving_cons] at henough
        exact .inr (by omega)

lemma exists_stretch (floor need : ℤ) (results : List (List ContentBlock)) :
    ∃ taken, Stretch imageSize floor need results taken := by
  induction results generalizing need with
  | nil => exact ⟨[],List.nil_prefix,fun ks hks hne => (hne (List.prefix_nil.mp hks)).elim,.inl rfl⟩
  | cons r rs ih =>
    by_cases hmet : need ≤ 0
    · exact ⟨[],List.nil_prefix,fun ks hks hne => (hne (List.prefix_nil.mp hks)).elim,.inr hmet⟩
    · obtain ⟨more,hmore⟩ := ih (need-saved imageSize floor r)
      refine ⟨r :: more,List.cons_prefix_cons.mpr ⟨rfl,hmore.opens⟩,?_,?_⟩
      · intro ks hks hne
        cases ks with
        | nil =>
          rw [saving_nil]
          omega
        | cons k ks =>
          obtain ⟨rfl,htail⟩ := List.cons_prefix_cons.mp hks
          have hless := hmore.fewer ks htail (fun h => hne (by rw [h]))
          rw [saving_cons]
          omega
      · obtain hall | henough := hmore.enough
        · exact .inl (by rw [hall])
        · rw [saving_cons]
          exact .inr (by omega)

end results

/-! The planner. -/
namespace Planning
variable (p : Planning)

/-- The results of a history before its protected tail, with their keys. -/
def exposedResults (messages : List Message) : List (ResultKey × CallID × List ContentBlock) :=
  numbered Prod.fst [] (toolResults (messages.take (messages.length-protectedTail)))

/-- Those that hold a text or a picture and that no compaction names yet. -/
def openResults (messages : List Message) (already : List CallID) (done : List ResultKey) :
    List (ResultKey × CallID × List ContentBlock) :=
  (exposedResults messages).filter (fun k => k.1.id ∉ already ∧ k.1 ∉ done ∧
    (joinedText k.2.2 ≠ "" ∨ pictures k.2.2 ≠ []))

/-- What may be shortened in a history. -/
def compactible (messages : List Message) (already : List CallID) (done : List ResultKey) :
    List (List ContentBlock) :=
  (openResults messages already done).map (fun k => k.2.2)

/-- The candidate that an open result makes. -/
def candidateOf (k : ResultKey × CallID × List ContentBlock) : Candidate :=
  ⟨k.1,joinedText k.2.2,(pictures k.2.2).length,
    Agent.size (joinedText k.2.2)+((pictures k.2.2).map List.length).sum,
    p.estimate (joinedText k.2.2)+p.scale
    (((pictures k.2.2).map (imageTokens p.imageSize)).sum : ℕ)⟩

lemma candidate_eq (k : ResultKey × CallID × List ContentBlock) :
    p.candidate k.1 k.2.2 = if joinedText k.2.2 = "" ∧ pictures k.2.2 = [] then
    none else some (p.candidateOf k) := rfl

lemma eligible_eq (messages : List Message) (already : List CallID) (done : List ResultKey) :
    p.eligible messages already done = (openResults messages already done).map p.candidateOf := by
  unfold eligible openResults
  show (exposedResults messages).filterMap _ = _
  induction exposedResults messages with
  | nil => rfl
  | cons k ks ih =>
    rw [List.filterMap_cons,List.filter_cons,candidate_eq]
    by_cases hskip : k.1.id ∈ already ∨ k.1 ∈ done
    · have hnot : ¬ (k.1.id ∉ already ∧ k.1 ∉ done ∧
        (joinedText k.2.2 ≠ "" ∨ pictures k.2.2 ≠ [])) := by tauto
      rw [if_pos hskip,if_neg (by simpa using hnot)]
      exact ih
    · rw [if_neg hskip]
      by_cases hempty : joinedText k.2.2 = "" ∧ pictures k.2.2 = []
      · have hnot : ¬ (k.1.id ∉ already ∧ k.1 ∉ done ∧
          (joinedText k.2.2 ≠ "" ∨ pictures k.2.2 ≠ [])) := by tauto
        rw [if_pos hempty,if_neg (by simpa using hnot)]
        exact ih
      · have hopen : k.1.id ∉ already ∧ k.1 ∉ done ∧
          (joinedText k.2.2 ≠ "" ∨ pictures k.2.2 ≠ []) := by tauto
        rw [if_neg hempty,if_pos (decide_eq_true hopen),List.map_cons]
        exact congrArg _ ih

lemma shortened_candidateOf (floor : ℤ) (k : ResultKey × CallID × List ContentBlock) :
    shortened (p.candidateOf k) floor = replacement floor k.2.2 := by
  unfold shortened replacement candidateOf
  dsimp only
  by_cases hnone : pictures k.2.2 = []
  · rw [if_pos hnone,hnone]
    rfl
  · rw [if_neg hnone,if_pos (List.length_pos_iff.mpr hnone)]

/-- What the estimate of a candidate falls by at a floor. -/
def gain (floor : ℤ) (c : Candidate) : ℤ := c.tokens-p.estimate (shortened c floor)

variable {p}

lemma gain_candidateOf (hscale : p.scale = id) (floor : ℤ)
    (k : ResultKey × CallID × List ContentBlock) :
    p.gain floor (p.candidateOf k) = lowering p.imageSize floor k.2.2 := by
  rw [gain,shortened_candidateOf]
  unfold candidateOf estimate lowering price
  rw [hscale]
  rfl

lemma worthwhile_candidateOf (hscale : p.scale = id) (floor : ℤ)
    (k : ResultKey × CallID × List ContentBlock) :
    p.worthwhile (p.candidateOf k) (replacement floor k.2.2) = true ↔
    Shrinks p.imageSize floor k.2.2 := by
  have hgain := gain_candidateOf hscale floor k
  rw [gain,shortened_candidateOf] at hgain
  unfold worthwhile Shrinks
  rw [hgain]
  by_cases hnone : pictures k.2.2 = []
  · have hzero : (p.candidateOf k).images = 0 := List.length_eq_zero_iff.mpr hnone
    rw [if_pos hzero,if_pos hnone]
    exact decide_eq_true_iff
  · have hsome : (p.candidateOf k).images ≠ 0 := fun h => hnone (List.length_eq_zero_iff.mp h)
    rw [if_neg hsome,if_neg hnone]
    exact decide_eq_true_iff

/-- The step that shortens an open result at a floor. -/
def stepFor (floor : ℤ) (k : ResultKey × CallID × List ContentBlock) : CompactionStep :=
  ⟨k.1.id,k.1.occurrence,replacement floor k.2.2,
    (Agent.size (joinedText k.2.2)+((pictures k.2.2).map List.length).sum : ℕ),
    Agent.size (replacement floor k.2.2)⟩

variable (p)

/-- The results among some that are shortened at a floor. -/
def shrunk (floor : ℤ) (ks : List (ResultKey × CallID × List ContentBlock)) :
    List (ResultKey × CallID × List ContentBlock) :=
  ks.filter (fun k => Shrinks p.imageSize floor k.2.2)

variable {p}

/-- The loop over the candidates takes what the need asks for. -/
lemma takeSteps_stretch (hscale : p.scale = id) {floor need already : ℤ}
    {ks : List (ResultKey × CallID × List ContentBlock)}
    {taken : List (List ContentBlock)}
    (h : Stretch p.imageSize floor (need-already) (ks.map (fun k => k.2.2)) taken) :
    p.takeSteps floor need already (ks.map p.candidateOf) =
      ((p.shrunk floor (ks.take taken.length)).map (stepFor floor),
        already+saving p.imageSize floor taken) := by
  induction ks generalizing already taken with
  | nil =>
    have hnil : taken = [] := List.prefix_nil.mp h.opens
    subst hnil
    simp [takeSteps,shrunk]
  | cons k ks ih =>
    rw [List.map_cons] at h ⊢
    unfold takeSteps
    by_cases hmet : already ≥ need
    · rw [if_pos hmet,h.met (by omega)]
      simp [shrunk]
    · obtain ⟨more,rfl,hmore⟩ := h.unmet (by omega)
      have hgain := gain_candidateOf hscale floor k
      rw [gain,shortened_candidateOf] at hgain
      rw [if_neg hmet]
      dsimp only
      rw [shortened_candidateOf,saving_cons,List.length_cons,List.take_succ_cons,shrunk,
        List.filter_cons]
      by_cases hshrinks : Shrinks p.imageSize floor k.2.2
      · have hsaved : saved p.imageSize floor k.2.2 = lowering p.imageSize floor k.2.2 :=
          if_pos hshrinks
        rw [hsaved,sub_sub] at hmore
        rw [if_pos ((worthwhile_candidateOf hscale floor k).mpr hshrinks),
          if_pos (decide_eq_true hshrinks),hgain,ih hmore,
          hsaved,add_assoc,List.map_cons]
        rfl
      · have hsaved : saved p.imageSize floor k.2.2 = 0 := if_neg hshrinks
        rw [hsaved,sub_zero] at hmore
        rw [if_neg (fun hw => hshrinks ((worthwhile_candidateOf hscale floor k).mp hw)),
          if_neg (by simpa using hshrinks),ih hmore,hsaved,zero_add]
        rfl

/-- The floor that is chosen is the one in force. -/
lemma chooseFloor_inForce (hscale : p.scale = id) (need : ℤ)
    (ks : List (ResultKey × CallID × List ContentBlock)) :
    InForce p.imageSize need (ks.map (fun k => k.2.2)) (p.chooseFloor need
      (ks.map p.candidateOf)) := by
  have hfall : ∀ floor, ((ks.map p.candidateOf).map
    (fun c => c.tokens-p.estimate (shortened c floor))).sum =
      fall p.imageSize floor (ks.map (fun k => k.2.2)) := by
    intro floor
    rw [List.map_map,fall,List.map_map]
    exact congrArg List.sum (List.map_congr_left fun k _ => gain_candidateOf hscale floor k)
  unfold chooseFloor
  simp only [hfall,ge_iff_le,compactFloors,List.find?_cons,List.find?_nil]
  generalize hresults : ks.map (fun k => k.2.2) = results
  by_cases hwide : need ≤ fall p.imageSize 1200 results
  · rw [decide_eq_true hwide]
    change InForce _ _ _ 1200
    refine .widest (by decide) hwide fun wider hwider hlt => ?_
    obtain rfl | rfl | rfl := mem_compactFloors.mp hwider <;> omega
  rw [decide_eq_false hwide]
  by_cases hmedium : need ≤ fall p.imageSize 400 results
  · rw [decide_eq_true hmedium]
    change InForce _ _ _ 400
    refine .widest (by decide) hmedium fun wider hwider hlt => ?_
    obtain rfl | rfl | rfl := mem_compactFloors.mp hwider <;> omega
  rw [decide_eq_false hmedium]
  by_cases htight : need ≤ fall p.imageSize 120 results
  · rw [decide_eq_true htight]
    change InForce _ _ _ 120
    refine .widest (by decide) htight fun wider hwider hlt => ?_
    obtain rfl | rfl | rfl := mem_compactFloors.mp hwider <;> omega
  · rw [decide_eq_false htight]
    refine .tightest rfl fun other hother => ?_
    obtain rfl | rfl | rfl := mem_compactFloors.mp hother <;> omega

end Planning

/-- One floor is in force. -/
lemma InForce.unique {imageSize : List UInt8 → Option (ℕ × ℕ)} {need : ℤ}
    {results : List (List ContentBlock)} {a b : ℤ}
    (ha : InForce imageSize need results a) (hb : InForce imageSize need results b) : a = b := by
  cases ha with
  | widest hfloor hcovers hwider =>
    cases hb with
    | widest hfloor' hcovers' hwider' =>
      obtain hlt | heq | hlt := lt_trichotomy a b
      · exact absurd (hwider b hfloor' hlt) (not_lt.mpr hcovers')
      · exact heq
      · exact absurd (hwider' a hfloor hlt) (not_lt.mpr hcovers)
    | tightest _ hnone => exact absurd (hnone a hfloor) (not_lt.mpr hcovers)
  | tightest hfloor hnone =>
    cases hb with
    | widest hfloor' hcovers' _ => exact absurd (hnone b hfloor') (not_lt.mpr hcovers')
    | tightest hfloor' _ => rw [hfloor,hfloor']

end Manvi.Agent
