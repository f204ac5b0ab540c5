import Manvi.Encoding.JsonCompact
import Manvi.LLM.Message

/-! The owned copy of a history. A string here is Unicode text, as every decoded string is, so
the structural copy is refused only where a raw value is no document. -/
namespace Manvi.LLM
open Manvi.Encoding

/-- An empty raw value is omitted on the wire; anything else is validated and compacted. -/
def cloneRaw (raw : RawMessage) : Except String RawMessage :=
  if raw = [] then .ok [] else Json.marshalRaw raw

mutual
def cloneBlock : ContentBlock → Except String ContentBlock
  | .text text => .ok (.text text)
  | .reasoning text signature redacted => .ok (.reasoning text signature redacted)
  | .image mediaType data => .ok (.image mediaType data)
  | .toolCall id name arguments => do
    let args ← cloneRaw arguments
    return .toolCall id name args
  | .toolResult toolCallID content isError => do
    let nested ← cloneBlocks content
    return .toolResult toolCallID nested isError

def cloneBlocks : List ContentBlock → Except String (List ContentBlock)
  | [] => .ok []
  | b :: bs => do
    let c ← cloneBlock b
    let cs ← cloneBlocks bs
    return c :: cs
end

def cloneProvenance (p : AssistantProvenance) : Except String AssistantProvenance := do
  let replay ← cloneRaw p.replayState
  return { p with replayState := replay }

def cloneMessage (m : Message) : Except String Message := do
  let content ← cloneBlocks m.content
  match m.provenance with
  | none => return ⟨m.role,content,none⟩
  | some p => do
    let q ← cloneProvenance p
    return ⟨m.role,content,some q⟩

/-- The JSON round trip, kept for what the structural copy cannot reproduce. -/
def cloneViaCodec (messages : List Message) : Except String (List Message) := do
  let js ← messages.mapM Message.marshal
  js.mapM Message.unmarshal

/-- An owned snapshot of a history. -/
def cloneMessages (messages : List Message) : Except String (List Message) :=
  match messages.mapM cloneMessage with
  | .ok copied => .ok copied
  | .error _ => cloneViaCodec messages

/-! What can be copied. -/

/-- A raw value that is absent or a document as the encoder writes it. -/
def RawOk (raw : RawMessage) : Prop := raw = [] ∨ ∃ j, raw = Json.encode j

lemma rawOk_encode (j : Json) : RawOk (Json.encode j) := .inr ⟨j,rfl⟩

lemma cloneRaw_eq {raw : RawMessage} (h : RawOk raw) : cloneRaw raw = .ok raw := by
  rcases h with rfl | ⟨j,rfl⟩
  · rfl
  · unfold cloneRaw
    split_ifs with hr
    · rw [hr]
    · exact Json.marshalRaw_encode j

/-- Blocks whose raw values are documents at every depth. -/
inductive Portable : ContentBlock → Prop
  | text (t : String) : Portable (.text t)
  | reasoning (t s : String) (r : Bool) : Portable (.reasoning t s r)
  | image (t : String) (d : List UInt8) : Portable (.image t d)
  | toolCall (id : CallID) (name : String) {args : RawMessage} (h : RawOk args) :
      Portable (.toolCall id name args)
  | toolResult (id : CallID) {content : List ContentBlock} (e : Bool)
      (h : ∀ b ∈ content, Portable b) : Portable (.toolResult id content e)

structure PortableMessage (m : Message) : Prop where
  content : ∀ b ∈ m.content, Portable b
  replay : ∀ p ∈ m.provenance, RawOk p.replayState

mutual
theorem cloneBlock_eq (b : ContentBlock) (h : Portable b) : cloneBlock b = .ok b := by
  match b, h with
  | .text t, _ => rfl
  | .reasoning t s r, _ => rfl
  | .image t d, _ => rfl
  | .toolCall id name args, .toolCall _ _ h =>
    simp only [cloneBlock,cloneRaw_eq h]
    rfl
  | .toolResult id content e, .toolResult _ _ h =>
    simp only [cloneBlock,cloneBlocks_eq content h]
    rfl

theorem cloneBlocks_eq (bs : List ContentBlock) (h : ∀ b ∈ bs, Portable b) :
    cloneBlocks bs = .ok bs := by
  match bs with
  | [] => rfl
  | b :: bs =>
    have hb := cloneBlock_eq b (h b (by simp))
    have hbs := cloneBlocks_eq bs (fun x hx => h x (by simp [hx]))
    simp only [cloneBlocks,hb,hbs]
    rfl
end

lemma cloneMessage_eq {m : Message} (h : PortableMessage m) : cloneMessage m = .ok m := by
  have hc := cloneBlocks_eq m.content h.content
  obtain ⟨role,content,provenance⟩ := m
  cases provenance with
  | none =>
    simp only [cloneMessage,hc]
    rfl
  | some p =>
    simp only [cloneMessage,hc,cloneProvenance,cloneRaw_eq (h.replay p rfl)]
    rfl

/-- The owned copy of a portable history equals it. -/
theorem cloneMessages_eq {ms : List Message} (h : ∀ m ∈ ms, PortableMessage m) :
    cloneMessages ms = .ok ms := by
  have hm : ms.mapM cloneMessage = Except.ok (ε := String) ms := by
    induction ms with
    | nil => rfl
    | cons m ms ih =>
      have hmsg := cloneMessage_eq (h m (by simp))
      have hrest := ih (fun x hx => h x (by simp [hx]))
      simp only [List.mapM_cons,hmsg,hrest]
      rfl
  simp only [cloneMessages,hm]

/-! Everything the codec decodes can be copied. -/

/-- Wire blocks whose raw values are documents at every depth. -/
inductive WireBlock.Portable : WireBlock → Prop
  | mk (w : WireBlock) (args : RawOk w.arguments) (content : ∀ c ∈ w.content, Portable c) :
      Portable w

namespace WireBlock

lemma Portable.args {w : WireBlock} (h : Portable w) : RawOk w.arguments := by cases h; assumption

lemma Portable.nested {w : WireBlock} (h : Portable w) : ∀ c ∈ w.content, Portable c := by
  cases h; assumption

lemma fields_portable {nested : Except String (List WireBlock)}
    (hn : ∀ ws, nested = .ok ws → ∀ c ∈ ws, Portable c) :
    ∀ f ∈ fields nested, ∀ cur v next, Portable cur → f.2 cur v = .ok next → Portable next := by
  intro f hf cur v next hc h
  simp only [fields,List.mem_cons,List.not_mem_nil,or_false] at hf
  rcases hf with rfl | rfl | rfl | rfl | rfl | rfl | rfl | rfl | rfl | rfl | rfl | rfl
  case inr.inr.inr.inr.inr.inr.inr.inr.inl => cases h; exact ⟨_,rawOk_encode v,hc.nested⟩
  all_goals obtain ⟨x,hx,hr⟩ := bind_ok h
  case inr.inr.inr.inr.inr.inr.inr.inr.inr.inr.inl => cases hr; exact ⟨_,hc.args,hn x hx⟩
  all_goals cases hr; exact ⟨_,hc.args,hc.nested⟩

mutual
theorem unmarshal_portable (cur w : WireBlock) (j : Json) (hc : Portable cur)
    (h : unmarshal cur j = .ok w) : Portable w := by
  match j with
  | .null => cases h; exact hc
  | .obj members => exact store_portable cur w members hc h

theorem store_portable (cur w : WireBlock) (members : List (String × Json)) (hc : Portable cur)
    (h : store cur members = .ok w) : Portable w := by
  match members with
  | [] => cases h; exact hc
  | (key,v) :: rest =>
    obtain ⟨next,hn,hr⟩ := bind_ok h
    have hv := unmarshalAll_portable v
    exact store_portable next w rest (Json.storeMember_invariant (fields_portable hv) hc hn) hr

theorem unmarshalAll_portable (j : Json) :
    ∀ ws, unmarshalAll j = .ok ws → ∀ c ∈ ws, Portable c := by
  intro ws h
  match j with
  | .null => cases h; simp
  | .arr items => exact unmarshalItems_portable items ws h

theorem unmarshalItems_portable (items : List Json) (ws : List WireBlock)
    (h : unmarshalItems items = .ok ws) : ∀ c ∈ ws, Portable c := by
  match items with
  | [] => cases h; simp
  | j :: rest =>
    obtain ⟨w,hw,h⟩ := bind_ok h
    obtain ⟨vs,hvs,h⟩ := bind_ok h
    cases h
    have h1 := unmarshal_portable {} w j ⟨_,.inl rfl,by simp⟩ hw
    have h2 := unmarshalItems_portable rest vs hvs
    intro c hc
    rcases List.mem_cons.mp hc with rfl | hc
    · exact h1
    · exact h2 c hc
end

mutual
theorem fromWire_portable (w : WireBlock) (hw : Portable w) (b : ContentBlock)
    (h : fromWire w = .ok b) : LLM.Portable b := by
  match w, hw with
  | ⟨kind,text,signature,redacted,mediaType,data,id,name,arguments,toolCallID,content,isError⟩,
      .mk _ ha hc =>
    unfold fromWire at h
    split at h
    · cases h; exact .text _
    split at h
    · cases h; exact .reasoning _ _ _
    split at h
    · cases h; exact .image _ _
    split at h
    · cases h; exact .toolCall _ _ ha
    split at h
    · obtain ⟨nested,hn,hr⟩ := bind_ok h
      cases hr
      exact .toolResult _ _ (fromWires_portable content hc nested hn)
    split at h <;> cases h

theorem fromWires_portable (ws : List WireBlock) (hw : ∀ w ∈ ws, Portable w)
    (bs : List ContentBlock) (h : fromWires ws = .ok bs) : ∀ b ∈ bs, LLM.Portable b := by
  match ws with
  | [] => cases h; simp
  | w :: ws =>
    obtain ⟨b,hb,h⟩ := bind_ok h
    obtain ⟨cs,hcs,h⟩ := bind_ok h
    cases h
    have h1 := fromWire_portable w (hw w (by simp)) b hb
    have h2 := fromWires_portable ws (fun v hv => hw v (by simp [hv])) cs hcs
    intro c hc
    rcases List.mem_cons.mp hc with rfl | hc
    · exact h1
    · exact h2 c hc
end

end WireBlock

/-- A decoded content list can be copied. -/
lemma unmarshalAll_fromWires_portable {j : Json} {ws : List WireBlock} {bs : List ContentBlock}
    (hw : WireBlock.unmarshalAll j = .ok ws) (hb : WireBlock.fromWires ws = .ok bs) :
    ∀ b ∈ bs, Portable b :=
  WireBlock.fromWires_portable ws (WireBlock.unmarshalAll_portable j ws hw) bs hb

namespace Message

/-- The part of a decoded wire message that a copy depends on. -/
structure Wire.Portable (w : Wire) : Prop where
  content : ∀ c ∈ w.content, WireBlock.Portable c
  replay : ∀ p ∈ w.provenance, RawOk p.replayState

lemma provenanceFields_rawOk : ∀ f ∈ provenanceFields, ∀ cur v next,
    RawOk cur.replayState → f.2 cur v = .ok next → RawOk next.replayState := by
  intro f hf cur v next hc h
  simp only [provenanceFields,List.mem_cons,List.not_mem_nil,or_false] at hf
  rcases hf with rfl | rfl | rfl
  · obtain ⟨x,hx,hr⟩ := bind_ok h
    cases hr
    exact hc
  · obtain ⟨x,hx,hr⟩ := bind_ok h
    cases hr
    exact hc
  · cases h
    exact rawOk_encode v

lemma storeProvenance_portable {cur next : Wire} {v : Json} (hc : cur.Portable)
    (h : storeProvenance cur v = .ok next) : next.Portable := by
  have hz : RawOk (cur.provenance.getD ⟨"","",[]⟩).replayState := by
    cases hp : cur.provenance with
    | none => exact .inl rfl
    | some p => exact hc.replay p hp
  unfold storeProvenance at h
  split at h
  · cases h
    exact ⟨hc.content,by simp⟩
  · obtain ⟨p,hp,hr⟩ := bind_ok h
    cases hr
    have hr := Json.storeInto_invariant (P := fun p => RawOk p.replayState)
      provenanceFields_rawOk hz hp
    exact ⟨hc.content,by simpa using hr⟩

lemma wireFields_portable : ∀ f ∈ wireFields, ∀ cur v next, Wire.Portable cur →
    f.2 cur v = .ok next → Wire.Portable next := by
  intro f hf cur v next hc h
  simp only [wireFields,List.mem_cons,List.not_mem_nil,or_false] at hf
  rcases hf with rfl | rfl | rfl
  · obtain ⟨x,hx,hr⟩ := bind_ok h
    cases hr
    exact ⟨hc.content,hc.replay⟩
  · obtain ⟨x,hx,hr⟩ := bind_ok h
    cases hr
    exact ⟨WireBlock.unmarshalAll_portable v x hx,hc.replay⟩
  · exact storeProvenance_portable hc h

/-- A decoded message can be copied. -/
theorem unmarshal_portable {j : Json} {m : Message} (h : unmarshal j = .ok m) :
    PortableMessage m := by
  obtain ⟨w,hw,h⟩ := bind_ok h
  obtain ⟨content,hc,h⟩ := bind_ok h
  cases h
  have hp := Json.storeInto_invariant (P := Wire.Portable) wireFields_portable
    ⟨by simp,by simp⟩ hw
  exact ⟨WireBlock.fromWires_portable _ hp.content _ hc,hp.replay⟩

end Message
end Manvi.LLM
