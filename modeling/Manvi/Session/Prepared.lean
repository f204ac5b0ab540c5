import Manvi.LLM.Prepare
import Manvi.Session.VisibleExact

/-! What a request is prepared from a log passes the check before it is sent. -/
namespace Manvi.Session
open Manvi.Encoding Manvi.LLM

/-- Reasoning is no part of what is compared. -/
lemma visibleBlocks_filter (bs : List ContentBlock) :
    visibleBlocks (bs.filter (fun b => !b.isReasoning)) = visibleBlocks bs := by
  induction bs with
  | nil => rfl
  | cons b bs ih =>
    rw [List.filter_cons]
    by_cases hb : b.isReasoning = true
    · rw [if_neg (by simp [hb]),ih]
      cases b <;> first | rfl | cases hb
    · rw [if_pos (by simp [hb]),visibleBlocks,visibleBlocks,ih]

/-- What a message is sent as is written as the message. -/
lemma writtenAs_of_accounted {i : ℕ} {m s : Message} {f : Fate} (h : Accounted i m f)
    (hs : f.sent = some s) :
    WrittenAs s m := by
  refine ⟨(h.role s hs).symm,?_⟩
  have hrest := h.rest
  rw [hs] at hrest
  rw [← visibleBlocks_filter m.content,← hrest]
  exact visibleBlocks_filter s.content

/-- Whatever part of a history is sent is a subsequence of it. -/
lemma sublistForall₂_fates (target : Option Target) (targetModel : String) (i : ℕ)
    (msgs : List Message) :
    List.SublistForall₂ WrittenAs ((fates target targetModel i msgs).filterMap Fate.sent) msgs := by
  induction msgs generalizing i with
  | nil => exact .nil
  | cons m msgs ih =>
    have hacc : Accounted (i+0) m _ := fates_accounted target targetModel i 0 (m :: msgs) rfl rfl
    rw [fates]
    cases hs : (target.elim (⟨some m,none⟩ : Fate)
      (fun t => prepareMessage t targetModel i m)).sent with
    | none =>
      rw [List.filterMap_cons_none hs]
      exact .cons_right (ih (i+1))
    | some s =>
      rw [List.filterMap_cons_some hs]
      exact .cons (writtenAs_of_accounted hacc hs) (ih (i+1))

lemma assertModelVisible_of_projected {l w : Log} {derived request : List Message}
    (hp : l.projected = .ok (derived,w)) (h : List.SublistForall₂ WrittenAs request derived) :
    assertModelVisible l request = .ok () := by
  simp only [assertModelVisible,hp,(checkVisible_ok_iff derived request 0).mpr h]

/-- The warm projection is read as it stands. -/
lemma projected_of_valid {l : Log} (h : l.proj.valid = true) :
    l.projected = .ok (l.proj.derived,l) := by
  rw [Log.projected,Log.warm,if_pos h]
  rfl

/-- Recording what was dropped leaves the projection as it was. -/
lemma append_provenanceDropped {l l' : Log} {e : Event} {payload : Payload}
    (h : l.append .provenanceDropped payload = .ok (l',e)) : l'.proj = l.proj := by
  obtain ⟨raw,_,h⟩ := bind_ok h
  obtain ⟨_,_,h⟩ := bind_ok h
  obtain ⟨projected,_,h⟩ := bind_ok h
  cases h
  rfl

/-- After any calls on a log, what is prepared from its messages for a target passes the check
before a request, also once the losses are recorded, and the reported losses are the difference. -/
theorem prepared_visible_and_accounted {start : Log} (hs : start.Started) (calls : List Call)
    (target : Option Target) (targetModel : String) :
    ∃ msgs w, (start.run calls).deriveMessages = .ok (msgs,w) ∧
      assertModelVisible (start.run calls) (prepareHistoryFor msgs target targetModel).1 = .ok () ∧
      assertModelVisible w (prepareHistoryFor msgs target targetModel).1 = .ok () ∧
      (∀ payload w' e, w.append .provenanceDropped payload = .ok (w',e) →
        assertModelVisible w' (prepareHistoryFor msgs target targetModel).1 = .ok ()) ∧
      ∃ fates : List Fate, fates.length = msgs.length ∧
        (prepareHistoryFor msgs target targetModel).1 = fates.filterMap Fate.sent ∧
        (prepareHistoryFor msgs target targetModel).2 = fates.filterMap Fate.drop ∧
        ∀ i m f, msgs[i]? = some m → fates[i]? = some f → Accounted i m f := by
  have hc := hs.coherent.run calls
  obtain ⟨xs,hxs,_⟩ := hc.reads
  obtain ⟨msgs,w,hm,hp,hd⟩ := hc.derives hxs
  rw [cloneMessages_project hxs] at hm
  cases hm
  have hfates := prepareHistoryFor_fates (project xs).derived target targetModel
  have hsub : List.SublistForall₂ WrittenAs (prepareHistoryFor
    (project xs).derived target targetModel).1
      (project xs).derived := by
    rw [hfates]
    exact sublistForall₂_fates target targetModel 0 (project xs).derived
  obtain ⟨w1,hw1,_,_,hv⟩ := hc.warm
  have hread : (start.run calls).projected = .ok (w1.proj.derived,w1) := by
    rw [Log.projected,hw1]
    rfl
  rw [hp] at hread
  obtain ⟨hderived,rfl⟩ := Prod.mk.inj (Except.ok.inj hread)
  rw [hderived] at hd hsub hfates hp
  refine ⟨_,w,hd,assertModelVisible_of_projected hp hsub,
    assertModelVisible_of_projected (projected_of_valid hv) hsub,?_,?_⟩
  · intro payload w' e happend
    have hproj := append_provenanceDropped happend
    have hread := projected_of_valid (l := w') (by rw [hproj,hv])
    rw [hproj] at hread
    exact assertModelVisible_of_projected hread hsub
  · refine ⟨fates target targetModel 0 _,fates_length target targetModel 0 _,
      congrArg Prod.fst hfates,
      congrArg Prod.snd hfates,?_⟩
    intro i m f hm hf
    have hacc := fates_accounted target targetModel 0 i _ hm hf
    rwa [Nat.zero_add] at hacc

/-- A log of a question, an answer with reasoning, and a step that was cut off inside its
reasoning. -/
def handoffCalls : List Call :=
  let produced : Json := .obj [("provider",.str "local"),("model",.str "small"),
    ("replay_state",.obj [])]
  let thought : Json := .obj [("kind",.str "reasoning"),("text",.str "hm")]
  let said : Json := .obj [("kind",.str "text"),("text",.str "yes")]
  [.append .userMessage (some
    (.ok (.obj [("message",.obj [("role",.str "user"),("content",.arr [said])])]))),
   .append .assistantMessage (some (.ok (.obj [("message",.obj [("role",.str "assistant"),
     ("content",.arr [thought,said]),("provenance",produced)])]))),
   .append .assistantMessage (some (.ok (.obj [("message",.obj [("role",.str "assistant"),
     ("content",.arr [thought]),("provenance",produced)])])))]

theorem prepared_visible_and_accounted_handoff : newLog.Started ∧
    (newLog.run handoffCalls).deriveMessages.toOption.map (fun p =>
      (prepareHistoryFor p.1 (some ⟨"local",some (fun _ _ => false)⟩) "small").2) =
      some [⟨1,"local","small","local","small",["reasoning"],true,false⟩,
        ⟨2,"local","small","local","small",["reasoning"],true,true⟩] ∧
    ∃ msgs w, (newLog.run handoffCalls).deriveMessages = .ok (msgs,w) ∧
      assertModelVisible w
        (prepareHistoryFor msgs (some ⟨"local",some (fun _ _ => false)⟩) "small").1 = .ok () := by
  refine ⟨.inl rfl,by decide,?_⟩
  obtain ⟨msgs,w,hd,_,hw,_⟩ := prepared_visible_and_accounted (.inl rfl) handoffCalls
    (some ⟨"local",some (fun _ _ => false)⟩) "small"
  exact ⟨msgs,w,hd,hw⟩

end Manvi.Session
