import Manvi.OpenAICompat.Recovery

/-! What recovery promises: calls of offered tools with objects for arguments, the functions of a
block together or not at all, and a text from which only the blocks that were read are gone. -/
namespace Manvi.OpenAICompat.Recovery
open Manvi.Encoding Manvi.Encoding.Json

def IsObject (args : RawMessage) : Prop := ∃ members, parse args = some (.obj members)

section objects

lemma isObject_of_valid {text : List Char} (hhead : text.head? = some '\x7b')
    (hvalid : valid text = true) :
    IsObject text := by
  obtain ⟨j,hj⟩ := Option.isSome_iff_exists.mp hvalid
  have hparse := unmarshal_some hj
  obtain ⟨rest,hv,-⟩ := parse_value hparse
  obtain ⟨t,ht⟩ := skipSpace_of_head hhead (by decide)
  obtain ⟨members,rfl⟩ := (parseValue_opens hv).1 t ht
  exact ⟨members,hparse⟩

lemma argumentsAsObject_object {args object : RawMessage}
    (h : argumentsAsObject args = some object) : IsObject object := by
  unfold argumentsAsObject at h
  dsimp only at h
  split at h
  next t ht =>
    split_ifs at h with hvalid
    cases h
    exact isObject_of_valid (by rw [ht];rfl) hvalid
  next =>
    split at h
    next inner hinner =>
      split_ifs at h with hvalid
      cases h
      exact isObject_of_valid hvalid.1 hvalid.2
    next => cases h
  next => cases h

lemma CallBody.call_object {body : CallBody} {name : String} {args : RawMessage}
    (h : body.call = some (name,args)) :
    IsObject args := by
  unfold CallBody.call at h
  dsimp only at h
  generalize (if body.name = "" then body.tool else body.name) = name' at h
  generalize (if body.arguments = [] then body.parameters else body.arguments) = args' at h
  split_ifs at h with hname hempty
  · cases h
    exact ⟨[],Reads.emptyObj.parse⟩
  · obtain ⟨object,hobject,he⟩ := Option.map_eq_some_iff.mp h
    cases he
    exact argumentsAsObject_object hobject

lemma parseJSONCall_object {payload : List Char} {name : String} {args : RawMessage}
    (h : parseJSONCall payload = some (name,args)) : IsObject args := by
  unfold parseJSONCall at h
  dsimp only at h
  split_ifs at h
  · exact CallBody.call_object h
  · exact CallBody.call_object h

/-- The members that are written for a map of documents are read as its members. -/
lemma encodeRawMembers_reads {key : String} {raw : RawMessage} {rest : List (String × RawMessage)}
    (h : ∀ e ∈ (key,raw) :: rest, ∃ j, Reads e.2 j) :
    ∃ members, ReadsMembers (encodeRawMembers ((key,raw) :: rest)) members := by
  induction rest generalizing key raw with
  | nil =>
    obtain ⟨j,hj⟩ := h (key,raw) List.mem_cons_self
    exact ⟨_,ReadsMembers.last (fun more => parseString_encode key more) hj⟩
  | cons e rest ih =>
    obtain ⟨key',raw'⟩ := e
    obtain ⟨j,hj⟩ := h (key,raw) List.mem_cons_self
    obtain ⟨members,hmembers⟩ := ih (fun e he => h e (List.mem_cons_of_mem _ he))
    exact ⟨_,ReadsMembers.cons (fun more => parseString_encode key more) hj hmembers⟩

lemma marshalRawMap_object {args : Table String RawMessage} {encoded : RawMessage}
    (h : marshalRawMap args = some encoded) :
    IsObject encoded := by
  unfold marshalRawMap at h
  dsimp only at h
  split_ifs at h with hall
  cases h
  generalize args.entries.insertionSort (fun a b => a.1 ≤ b.1) = sorted at hall
  cases sorted with
  | nil => exact ⟨[],Reads.emptyObj.parse⟩
  | cons e rest =>
    have hreads : ∀ m ∈ (e :: rest).map (fun e => (e.1,compact false false e.2)), ∃ j,
      Reads m.2 j := by
      intro m hm
      obtain ⟨d,hd,rfl⟩ := List.mem_map.mp hm
      obtain ⟨j,hj⟩ := Option.isSome_iff_exists.mp (List.all_eq_true.mp hall d hd)
      exact ⟨j,reads_compact (unmarshal_some hj)⟩
    obtain ⟨members,hmembers⟩ := encodeRawMembers_reads hreads
    exact ⟨members,(Reads.obj hmembers).parse⟩

lemma xmlParameters_object {body : List Char} {types : String → String} {args : RawMessage}
    (h : xmlParameters body types = some args) : IsObject args := by
  obtain ⟨table,-,hargs⟩ := Option.bind_eq_some_iff.mp h
  exact marshalRawMap_object hargs

end objects

/-- The functions that a block names, each by its opening tag. -/
def functionNamesFrom : ℕ → List Char → List (List Char)
  | 0,_ => []
  | n+1,text => match index text functionOpen with
    | none => []
    | some start =>
      let rest := text.drop (start+functionOpen.length)
      match index rest ['>'] with
      | none => [functionName rest]
      | some nameEnd => functionName (rest.take nameEnd) :: functionNamesFrom n
        (rest.drop (nameEnd+1))

def functionNames (text : List Char) : List (List Char) := functionNamesFrom (text.length+1) text

section functions

/-- Nothing that begins in the first part is the tag. -/
lemma index_skip {a b tag : List Char} (h : ∀ x y, a ++ b = x ++ tag ++ y → a.length ≤ x.length) :
    index (a ++ b) tag = (index b tag).map (·+a.length) := by
  induction a with
  | nil => simp
  | cons c a ih =>
    have hnot : ¬ tag <+: c :: (a ++ b) := by
      rintro ⟨y,hy⟩
      have := h [] y hy.symm
      simp at this
    have hrest : ∀ x y, a ++ b = x ++ tag ++ y → a.length ≤ x.length := by
      intro x y hxy
      have := h (c :: x) y (by simp [hxy])
      simpa using this
    rw [List.cons_append,index_cons_of_not_begins hnot,ih hrest,Option.map_map]
    congr 1

/-- Behind a body without a function, the next opening tag stands behind the closing one. -/
lemma open_behind_close {body rest x y : List Char} (hbody : ¬ functionOpen <:+: body)
    (h : body ++ functionClose ++ rest = x ++ functionOpen ++ y) :
    (body ++ functionClose).length ≤ x.length := by
  have htext : x ++ functionOpen ++ y = (body ++ ['<']) ++
    '/' :: (['f','u','n','c','t','i','o','n','>'] ++ rest) := by
    rw [← h]
    simp [functionClose]
  cases append_eq_append_cons (by decide) htext with
  | inl hbefore =>
    obtain ⟨z,hz⟩ := hbefore
    exfalso
    cases z using List.reverseRecOn with
    | nil =>
      have hlast := congrArg List.getLast? hz
      simp [functionOpen] at hlast
    | append_singleton z c =>
      rw [← List.append_assoc] at hz
      obtain ⟨hz,-⟩ := List.append_inj' hz rfl
      exact hbody ⟨x,z,hz.symm⟩
  | inr hbehind =>
    obtain ⟨z,hz,rfl⟩ := hbehind
    have htext' : z ++ functionOpen ++ y = ['f','u','n','c','t','i','o','n'] ++ '>' :: rest := by
      rw [← hz]
      rfl
    cases append_eq_append_cons (by decide) htext' with
    | inl hbefore =>
      obtain ⟨z',hz'⟩ := hbefore
      have hlen := congrArg List.length hz'
      simp only [functionOpen,List.length_append,List.length_cons,List.length_nil] at hlen
      omega
    | inr hbehind =>
      obtain ⟨z',-,rfl⟩ := hbehind
      simp [functionClose]

lemma functionNamesFrom_skip {n : ℕ} {body rest : List Char} (hbody : ¬ functionOpen <:+: body) :
    functionNamesFrom n (body ++ functionClose ++ rest) = functionNamesFrom n rest := by
  cases n with
  | zero => rfl
  | succ n =>
    have hbehind : ∀ x y, body ++ functionClose ++ rest = x ++ functionOpen ++ y →
      (body ++ functionClose).length ≤ x.length :=
      fun x y h => open_behind_close hbody h
    have hindex := index_skip hbehind
    rw [functionNamesFrom,functionNamesFrom,hindex]
    cases index rest functionOpen with
    | none => rfl
    | some start =>
      dsimp only [Option.map_some]
      have hdrop : (body ++ functionClose ++
        rest).drop (start+(body ++ functionClose).length+functionOpen.length) =
          rest.drop (start+functionOpen.length) := by
        rw [show start+(body ++ functionClose).length+functionOpen.length =
          (body ++ functionClose).length+(start+functionOpen.length) by omega,← List.drop_drop,
          List.drop_left]
      rw [hdrop]

/-- One function block is read, and then the rest. -/
lemma parseXMLCallsFrom_step {tools : List ToolSchema} {n : ℕ} {text : List Char}
    {calls : List ParsedCall}
    (h : parseXMLCallsFrom tools (n+1) text = some calls) :
    (index text functionOpen = none ∧ calls = []) ∨ ∃ start nameEnd args later,
    index text functionOpen = some start ∧
      index (text.drop (start+functionOpen.length)) ['>'] = some nameEnd ∧
      (let rest := text.drop (start+functionOpen.length)
      let name := String.ofList (functionName (rest.take nameEnd))
      let parts := functionBody (rest.drop (nameEnd+1))
      ¬ functionOpen <:+: parts.1 ∧ xmlParameters parts.1 (paramTypes tools name) = some args ∧
        parseXMLCallsFrom tools n parts.2 = some later ∧ calls = ⟨name,args,true⟩ :: later) := by
  unfold parseXMLCallsFrom at h
  cases hopen : index text functionOpen with
  | none =>
    rw [hopen] at h
    cases h
    exact .inl ⟨rfl,rfl⟩
  | some start =>
    rw [hopen] at h
    dsimp only at h
    cases hname : index (text.drop (start+functionOpen.length)) ['>'] with
    | none =>
      rw [hname] at h
      cases h
    | some nameEnd =>
      rw [hname] at h
      dsimp only at h
      split_ifs at h with hempty hnested
      rw [contains_iff] at hnested
      split at h
      next => cases h
      next args hargs =>
        obtain ⟨later,hlater,rfl⟩ := Option.map_eq_some_iff.mp h
        exact .inr ⟨start,nameEnd,args,later,rfl,hname,hnested,hargs,hlater,rfl⟩

lemma functionNamesFrom_free {n : ℕ} {text : List Char} (h : ¬ functionOpen <:+: text) :
    functionNamesFrom n text = [] := by
  cases n with
  | zero => rfl
  | succ n => simp only [functionNamesFrom,index_eq_none_iff.mpr h]

/-- The functions behind a body are those behind its closing tag. -/
lemma functionNamesFrom_body {n : ℕ} {rest : List Char}
    (h : ¬ functionOpen <:+: (functionBody rest).1) :
    functionNamesFrom n (functionBody rest).2 = functionNamesFrom n rest := by
  unfold functionBody at h ⊢
  cases hclose : index rest functionClose with
  | none =>
    rw [hclose] at h
    rw [functionNamesFrom_free h]
    change functionNamesFrom n [] = []
    exact functionNamesFrom_free (by decide)
  | some i =>
    rw [hclose] at h
    obtain ⟨body,after,rfl,-,hbody,hafter⟩ := exists_of_index hclose
    dsimp only at h ⊢
    rw [← hbody] at h
    rw [← hafter,functionNamesFrom_skip h]

lemma functionBody_length (rest : List Char) : (functionBody rest).2.length ≤ rest.length := by
  unfold functionBody
  split
  next => simp
  next => simp

/-- The functions of markup that is read are all of its functions. -/
lemma parseXMLCallsFrom_names {tools : List ToolSchema} {n m : ℕ} {text : List Char}
    {calls : List ParsedCall}
    (h : parseXMLCallsFrom tools n text = some calls) (hm : text.length < m) :
    calls.map (fun c => c.name.toList) = functionNamesFrom m text := by
  induction n generalizing m text calls with
  | zero => cases h
  | succ n ih =>
    cases m with
    | zero => omega
    | succ m =>
      obtain ⟨hopen,rfl⟩ | ⟨start,nameEnd,args,later,hopen,hname,hnested,-,hlater,rfl⟩ :=
        parseXMLCallsFrom_step h
      · simp only [functionNamesFrom,hopen,List.map_nil]
      · have hwithin := index_within hopen
        have hshort := functionBody_length ((text.drop (start+functionOpen.length)).drop
          (nameEnd+1))
        have hlen : functionOpen.length = 10 := rfl
        simp only [List.length_drop] at hshort
        have hnames : later.map (fun c => c.name.toList) = functionNamesFrom m _ :=
          ih hlater (by omega)
        rw [List.map_cons,hnames,functionNamesFrom_body hnested]
        simp only [functionNamesFrom,hopen,hname,String.toList_ofList]

end functions

section payloads
variable {tools : List ToolSchema}

lemma parseXMLCallsFrom_object {n : ℕ} {text : List Char} {calls : List ParsedCall}
    (h : parseXMLCallsFrom tools n text = some calls) : ∀ c ∈ calls, IsObject c.args := by
  induction n generalizing text calls with
  | zero => cases h
  | succ n ih =>
    obtain ⟨-,rfl⟩ | ⟨start,nameEnd,args,later,-,-,-,hargs,hlater,rfl⟩ := parseXMLCallsFrom_step h
    · simp
    · intro c hc
      obtain rfl | hc := List.mem_cons.mp hc
      · exact xmlParameters_object hargs
      · exact ih hlater c hc

lemma parseXMLCalls_spec {payload : List Char} {calls : List ParsedCall}
    (h : parseXMLCalls payload tools = some calls) :
    calls ≠ [] ∧ (∀ c ∈ calls, IsObject c.args) ∧
    calls.map (fun c => c.name.toList) = functionNames payload := by
  unfold parseXMLCalls at h
  split at h
  next => cases h
  next hne =>
    refine ⟨?_,parseXMLCallsFrom_object h,parseXMLCallsFrom_names h (Nat.lt_succ_self _)⟩
    rintro rfl
    exact hne h

/-- What is read from a block: at least one call, each of an offered tool and with an object, and
for markup all of its functions. -/
lemma parseCallPayload_spec {payload : List Char} {calls : List ParsedCall}
    (h : parseCallPayload payload tools = some calls) :
    calls ≠ [] ∧ (∀ c ∈ calls, schemaOffers tools c.name = true ∧ IsObject c.args) ∧
      (functionOpen <+: payload → calls.map (fun c => c.name.toList) = functionNames payload) := by
  unfold parseCallPayload at h
  dsimp only at h
  split at h
  next => cases h
  next found hread =>
  split_ifs at h with hall
  obtain rfl := Option.some.inj h
  have hoffers : ∀ c ∈ found, schemaOffers tools c.name = true := List.all_eq_true.mp hall
  split_ifs at hread with hpre
  · obtain ⟨hne,hobject,hnames⟩ := parseXMLCalls_spec hread
    exact ⟨hne,fun c hc => ⟨hoffers c hc,hobject c hc⟩,fun _ => hnames⟩
  · obtain ⟨call,hcall,he⟩ := Option.map_eq_some_iff.mp hread
    cases he
    refine ⟨by simp,fun c hc => ⟨hoffers c hc,?_⟩,
      fun hp => absurd (List.isPrefixOf_iff_prefix.mpr hp) hpre⟩
    rw [List.mem_singleton] at hc
    rw [hc]
    exact parseJSONCall_object hcall

lemma fenceCall_spec {body : List Char} {call : ToolCallBlock}
    (h : fenceCall tools body = some call) :
    schemaOffers tools call.name = true ∧ IsObject call.arguments := by
  unfold fenceCall at h
  dsimp only at h
  split at h
  next name args hcall =>
    split_ifs at h with hoffers
    cases h
    exact ⟨hoffers,parseJSONCall_object hcall⟩
  next => cases h

end payloads

/-- The two kinds of blocks that are looked for. -/
inductive Scan
  | tagged
  | fenced

namespace Scan

def opening : Scan → List Char
  | tagged => toolCallOpen
  | fenced => fence

def closing : Scan → List Char
  | tagged => toolCallClose
  | fenced => fence

/-- A text as its blocks and what stands between them. -/
def pieces (scan : Scan) (text : List Char) : List (Piece Char) :=
  Encoding.pieces scan.opening scan.closing text

/-- The calls that a piece is read as. -/
def reads (tools : List ToolSchema) : Scan → Piece Char → List ToolCallBlock
  | tagged,.block body => ((parseCallPayload (Runes.trimSpace body) tools).getD []).map (fun c =>
    ⟨c.name,c.args⟩)
  | fenced,.block body => (fenceCall tools body).toList
  | _,_ => []

/-- A text without the blocks that are read as calls. -/
def kept (tools : List ToolSchema) (scan : Scan) (ps : List (Piece Char)) : List Char :=
  textOf scan.opening scan.closing (ps.filter (fun p => scan.reads tools p = []))

/-- The piece that a place of the text lies in. -/
def pieceAt (scan : Scan) (text : List Char) (i : ℕ) : Option (Piece Char) :=
  Encoding.pieceAt scan.opening scan.closing (scan.pieces text) i

lemma opening_ne (scan : Scan) : scan.opening ≠ [] := by
  cases scan with
  | tagged => decide
  | fenced => decide

lemma cuts (scan : Scan) (text : List Char) :
    Cuts scan.opening scan.closing text (scan.pieces text) :=
  pieces_cuts scan.opening_ne

end Scan

/-- What is recovered is what the blocks of one kind are read as, and only those blocks are gone
from the text: a block that is not read stays, and with the fences also every tool-call block. The
functions of a block come together or not at all. -/
structure Conservative (tools : List ToolSchema) (raw cleaned : List Char)
    (calls : List ToolCallBlock) (scan : Scan) :
    Prop where
  calls : calls = (scan.pieces (Runes.trimSpace raw)).flatMap (scan.reads tools)
  text : cleaned = Runes.trimSpace (scan.kept tools (scan.pieces (Runes.trimSpace raw)))
  together : ∀ body, .block body ∈ Scan.tagged.pieces (Runes.trimSpace raw) →
    functionOpen <+: Runes.trimSpace body →
    Scan.tagged.reads tools (.block body) = [] ∨
    (Scan.tagged.reads tools (.block body)).map (fun c => c.name.toList) = functionNames
    (Runes.trimSpace body)
  left : scan = .fenced → ∀ i p q, Scan.tagged.pieceAt (Runes.trimSpace raw) i = some p →
    p.isProse = false →
    Scan.fenced.pieceAt (Runes.trimSpace raw) i = some q → Scan.fenced.reads tools q = []

/-- Recovery from a text is safe and conservative. -/
structure Safe (tools : List ToolSchema) (raw cleaned : List Char)
    (calls : List ToolCallBlock) : Prop where
  offered : ∀ c ∈ calls, ∃ t ∈ tools, t.name = c.name
  object : ∀ c ∈ calls, IsObject c.arguments
  conservative : (calls = [] ∧ cleaned = raw) ∨ ∃ scan, Conservative tools raw cleaned calls scan

end Manvi.OpenAICompat.Recovery
