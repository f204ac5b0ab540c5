import Manvi.Session.Projection

/-! What a compaction changes: the content of the one result it names. -/
namespace Manvi.Session
open Manvi.Encoding Manvi.LLM

/-- Replace one block of one message. -/
def setBlock (ms : List Message) (i j : ℕ) (b : ContentBlock) : List Message :=
  ms.modify i (fun m => { m with content := m.content.set j b })

section block
variable {i j : ℕ} {b : ContentBlock}

lemma setBlock_append {ms : List Message} (h : i < ms.length) (rest : List Message) :
    setBlock (ms ++ rest) i j b = setBlock ms i j b ++ rest := by
  unfold setBlock
  induction ms generalizing i with
  | nil => simp at h
  | cons m ms ih =>
    cases i with
    | zero => rfl
    | succ i =>
      simp only [List.cons_append,List.modify_succ_cons]
      rw [ih (by simpa using h)]

lemma setBlock_last (ms : List Message) (m : Message) :
    setBlock (ms ++ [m]) ms.length j b = ms ++ [{ m with content := m.content.set j b }] := by
  unfold setBlock
  induction ms with
  | nil => rfl
  | cons x ms ih =>
    simp only [List.cons_append,List.length_cons,List.modify_succ_cons]
    rw [ih]

lemma setBlock_past {ms : List Message} (h : ms.length ≤ i) : setBlock ms i j b = ms :=
  List.modify_eq_self h

lemma setBlock_eq_set {ms : List Message} {m : Message} (h : ms[i]? = some m) :
    setBlock ms i j b = ms.set i { m with content := m.content.set j b } := by
  unfold setBlock
  induction ms generalizing i with
  | nil => simp at h
  | cons x ms ih =>
    cases i with
    | zero =>
      cases h
      rfl
    | succ i =>
      rw [List.modify_succ_cons,List.set_cons_succ,ih h]

end block

/-- The place a result takes in a history: the message its group becomes, and its place there. -/
def History.nextPlace (h : History) : ℕ × ℕ := (h.messages.length,h.pending.length)

/-- The place of the result recorded at a sequence number, from the events before it. -/
def resultPlace (events : List Event) (seq : ℤ) : Option (ℕ × ℕ) :=
  match rebuildProjection (events.takeWhile (fun e => e.seq ≠ seq)) with
  | .ok p => some p.nextPlace
  | .error _ => none

namespace History

/-- The history with one block replaced, in its message or in the open group. -/
def setPlace (h : History) (i j : ℕ) (b : ContentBlock) : History :=
  { h with
    messages := setBlock h.messages i j b
    pending := if h.messages.length = i then h.pending.set j b else h.pending }

/-- A place the history has already filled. -/
def Fills (h : History) (i j : ℕ) : Prop :=
  i < h.messages.length ∨ (i = h.messages.length ∧ j < h.pending.length)

section place
variable {h : History} {i j : ℕ} {b : ContentBlock}

lemma setPlace_flushPending (hp : h.Fills i j) :
    (h.setPlace i j b).flushPending = h.flushPending.setPlace i j b := by
  obtain ⟨results,messages,pending⟩ := h
  rcases hp with hp | ⟨hi,hj⟩
  · have hne : ¬ messages.length = i := ne_of_gt hp
    simp only [setPlace,flushPending,hne,if_false]
    split_ifs with he
    · rfl
    · simp [setBlock_append hp]
    · simp [setBlock_append hp]
  · have hi : i = messages.length := hi
    subst hi
    have hne : pending ≠ [] := by
      intro he
      simp [he] at hj
    have hne' : pending.set j b ≠ [] := by simpa using hne
    simp only [setPlace,flushPending,if_true,if_neg hne,if_neg hne',List.set_nil,ite_self,
      setBlock_last,setBlock_past (le_refl _)]

lemma Fills.flushPending (hp : h.Fills i j) : i < h.flushPending.messages.length := by
  unfold History.flushPending
  split_ifs with he
  · rcases hp with hp | ⟨_,hj⟩
    · exact hp
    · simp [he] at hj
  · rcases hp with hp | ⟨hi,_⟩
    · simpa using Nat.lt_succ_of_lt hp
    · simp [hi]

lemma setPlace_addMessage (hp : h.Fills i j) (m : Message) :
    (h.setPlace i j b).addMessage m = (h.addMessage m).setPlace i j b := by
  have hlt := hp.flushPending
  simp only [addMessage,setPlace_flushPending hp]
  simp only [setPlace,setBlock_append hlt,List.length_append,List.length_singleton]
  rw [if_neg (by omega),if_neg (by omega)]

lemma setPlace_addResult (hp : h.Fills i j) (l : Ledger) (seq : ℤ) (d : ToolResultData) :
    (h.setPlace i j b).addResult l seq d = (h.addResult l seq d).setPlace i j b := by
  obtain ⟨results,messages,pending⟩ := h
  rcases hp with hp | ⟨hi,hj⟩
  · have hne : ¬ messages.length = i := ne_of_gt hp
    simp only [addResult,setPlace,hne,if_false]
  · have hi : messages.length = i := hi.symm
    have hj : j < pending.length := hj
    simp only [addResult,setPlace,hi,if_true,List.set_append_left j b hj]

lemma setPlace_record (hp : h.Fills i j) (l : Ledger) (x : Entry) :
    (h.setPlace i j b).record l x = (h.record l x).setPlace i j b := by
  cases x with
  | neutral => rfl
  | message m => exact setPlace_addMessage hp m
  | result seq d => exact setPlace_addResult hp l seq d
  | compaction c => rfl

lemma Fills.record (hp : h.Fills i j) (l : Ledger) (x : Entry) : (h.record l x).Fills i j := by
  cases x with
  | neutral => exact hp
  | compaction c => exact hp
  | message m =>
    have hlt := hp.flushPending
    refine .inl ?_
    simp only [History.record,addMessage,List.length_append,List.length_singleton]
    omega
  | result seq d =>
    rcases hp with hp | ⟨hi,hj⟩
    · exact .inl hp
    · refine .inr ⟨hi,?_⟩
      simp only [History.record,addResult,List.length_append,List.length_singleton]
      omega

lemma foldl_setPlace (l : Ledger) (xs : List Entry) (hp : h.Fills i j) :
    xs.foldl (History.record l) (h.setPlace i j b) =
      (xs.foldl (History.record l) h).setPlace i j b := by
  induction xs generalizing h with
  | nil => rfl
  | cons x xs ih =>
    rw [List.foldl_cons,List.foldl_cons,setPlace_record hp,ih (hp.record l x)]

lemma derived_setPlace (hp : h.Fills i j) :
    (h.setPlace i j b).derived = setBlock h.derived i j b := by
  rw [derived_eq_flushPending,derived_eq_flushPending,setPlace_flushPending hp]
  rfl

end place

/-- The block a place holds, in its message or in the open group. -/
def Holds (h : History) (i j : ℕ) (b : ContentBlock) : Prop :=
  (∃ m, h.messages[i]? = some m ∧ m.content[j]? = some b) ∨
    (i = h.messages.length ∧ h.pending[j]? = some b)

namespace Holds
variable {h : History} {i j : ℕ} {b : ContentBlock}

lemma fills (hb : h.Holds i j b) : h.Fills i j := by
  rcases hb with ⟨m,hm,_⟩ | ⟨hi,hj⟩
  · exact .inl (List.getElem?_eq_some_iff.mp hm).1
  · exact .inr ⟨hi,(List.getElem?_eq_some_iff.mp hj).1⟩

lemma flushPending (hb : h.Holds i j b) :
    ∃ m, h.flushPending.messages[i]? = some m ∧ m.content[j]? = some b := by
  unfold History.flushPending
  split_ifs with he
  · rcases hb with hb | ⟨_,hj⟩
    · exact hb
    · simp [he] at hj
  · rcases hb with ⟨m,hm,hj⟩ | ⟨hi,hj⟩
    · exact ⟨m,by rw [List.getElem?_append_left (List.getElem?_eq_some_iff.mp hm).1]; exact hm,hj⟩
    · exact ⟨⟨.user,h.pending,none⟩,by simp [hi],hj⟩

lemma record (hb : h.Holds i j b) (l : Ledger) (x : Entry) : (h.record l x).Holds i j b := by
  cases x with
  | neutral => exact hb
  | compaction c => exact hb
  | message m =>
    obtain ⟨a,ha,hj⟩ := hb.flushPending
    refine .inl ⟨a,?_,hj⟩
    simp only [History.record,addMessage]
    rw [List.getElem?_append_left (List.getElem?_eq_some_iff.mp ha).1]
    exact ha
  | result seq d =>
    rcases hb with hb | ⟨hi,hj⟩
    · exact .inl hb
    · refine .inr ⟨hi,?_⟩
      simp only [History.record,addResult]
      rw [List.getElem?_append_left (List.getElem?_eq_some_iff.mp hj).1]
      exact hj

lemma foldl (l : Ledger) (xs : List Entry) (hb : h.Holds i j b) :
    (xs.foldl (History.record l) h).Holds i j b := by
  induction xs generalizing h with
  | nil => exact hb
  | cons x xs ih => exact ih (hb.record l x)

lemma derived (hb : h.Holds i j b) : ∃ m, h.derived[i]? = some m ∧ m.content[j]? = some b := by
  rw [derived_eq_flushPending]
  exact hb.flushPending

end Holds

/-- The result just added is held at the place that was next. -/
lemma holds_addResult (h : History) (l : Ledger) (seq : ℤ) (d : ToolResultData) :
    (h.addResult l seq d).Holds h.nextPlace.1 h.nextPlace.2
      (.toolResult d.toolCallID (l.resultContent seq d) d.isError) :=
  .inr ⟨rfl,by simp [addResult,nextPlace]⟩

/-- Adding a result under another ledger replaces the block at that place. -/
lemma addResult_setPlace (h : History) (l l' : Ledger) (seq : ℤ) (d : ToolResultData) :
    h.addResult l' seq d = (h.addResult l seq d).setPlace h.nextPlace.1 h.nextPlace.2
      (.toolResult d.toolCallID (l'.resultContent seq d) d.isError) := by
  simp [addResult,setPlace,nextPlace,setBlock_past]

end History

/-! Replaying under the ledger with one more compaction. -/

/-- The two ledgers replay an entry alike. -/
def Ledger.Agree (l l' : Ledger) : Entry → Prop
  | .result seq d => l.resultContent seq d = l'.resultContent seq d
  | _ => True

lemma History.record_congr {l l' : Ledger} {x : Entry} (hx : l.Agree l' x) (h : History) :
    h.record l x = h.record l' x := by
  cases x with
  | neutral => rfl
  | message m => rfl
  | compaction c => rfl
  | result seq d =>
    have hx : l.resultContent seq d = l'.resultContent seq d := hx
    simp only [record,addResult,hx]

lemma foldl_record_congr {l l' : Ledger} {xs : List Entry} (hx : ∀ x ∈ xs, l.Agree l' x)
    (h : History) : xs.foldl (History.record l) h = xs.foldl (History.record l') h := by
  induction xs generalizing h with
  | nil => rfl
  | cons x xs ih =>
    rw [List.foldl_cons,List.foldl_cons,History.record_congr (hx x (by simp))]
    exact ih (fun y hy => hx y (by simp [hy])) _

/-- One result replayed differently changes the block at its place and nothing else. -/
theorem historyOf_setPlace {l l' : Ledger} {pre post : List Entry} {seq : ℤ} {d : ToolResultData}
    (hpre : ∀ x ∈ pre, l.Agree l' x) (hpost : ∀ x ∈ post, l.Agree l' x) :
    let place := (historyOf l pre).nextPlace
    historyOf l' (pre ++ .result seq d :: post) =
      (historyOf l (pre ++ .result seq d :: post)).setPlace place.1 place.2
        (.toolResult d.toolCallID (l'.resultContent seq d) d.isError) := by
  intro place
  have hh := (historyOf l pre).holds_addResult l seq d
  simp only [historyOf,List.foldl_append,List.foldl_cons]
  rw [← foldl_record_congr hpre,← foldl_record_congr hpost]
  change List.foldl _ ((historyOf l pre).addResult l' seq d) post = _
  rw [History.addResult_setPlace _ l l',History.foldl_setPlace l post hh.fills]
  rfl

/-- The result's own block, where it is held. -/
theorem historyOf_holds (l : Ledger) (pre post : List Entry) (seq : ℤ) (d : ToolResultData) :
    (historyOf l (pre ++ .result seq d :: post)).Holds (historyOf l pre).nextPlace.1
      (historyOf l pre).nextPlace.2 (.toolResult d.toolCallID
        (l.resultContent seq d) d.isError) := by
  simp only [historyOf,List.foldl_append,List.foldl_cons]
  exact ((historyOf l pre).holds_addResult l seq d).foldl l post

/-- Where the next result goes does not depend on the compactions. -/
lemma nextPlace_foldl (l l' : Ledger) (xs : List Entry) {h h' : History}
    (hm : h.messages.length = h'.messages.length) (hp : h.pending.length = h'.pending.length) :
    (xs.foldl (History.record l) h).nextPlace = (xs.foldl (History.record l') h').nextPlace := by
  induction xs generalizing h h' with
  | nil => simp [History.nextPlace,hm,hp]
  | cons x xs ih =>
    have hf : h.flushPending.messages.length = h'.flushPending.messages.length ∧
        h.flushPending.pending.length = h'.flushPending.pending.length := by
      have he : h.pending = [] ↔ h'.pending = [] := by
        rw [← List.length_eq_zero_iff,← List.length_eq_zero_iff,hp]
      unfold History.flushPending
      by_cases hn : h.pending = []
      · rw [if_pos hn,if_pos (he.mp hn)]
        exact ⟨hm,hp⟩
      · rw [if_neg hn,if_neg (fun h' => hn (he.mpr h'))]
        exact ⟨by simp [hm],rfl⟩
    cases x with
    | neutral => exact ih hm hp
    | compaction c => exact ih hm hp
    | message m => exact ih (by simp [History.record,History.addMessage,hf.1]) hf.2
    | result seq d => exact ih hm (by simp [History.record,History.addResult,hp])

lemma nextPlace_historyOf (l l' : Ledger) (xs : List Entry) :
    (historyOf l xs).nextPlace = (historyOf l' xs).nextPlace :=
  nextPlace_foldl l l' xs rfl rfl

section named
variable (l : Ledger) {c : CompactionData}

lemma Ledger.resultContent_record_of_ne (hpos : 0 < c.resultSeq) {seq : ℤ} (hne : seq ≠ c.resultSeq)
    (d : ToolResultData) : (l.record (.compaction c)).resultContent seq d =
    l.resultContent seq d := by
  simp only [record,gt_iff_lt,hpos,if_true,resultContent,shortened,Table.get_set_of_ne _ hne]

lemma Ledger.resultContent_record_self (hpos : 0 < c.resultSeq) {d : ToolResultData}
    (hid : d.toolCallID = c.toolCallID) :
    (l.record (.compaction c)).resultContent c.resultSeq d = [.text c.text] := by
  simp [record,hpos,resultContent,shortened,hid]

end named

/-! The result a compaction names. -/

lemma resultID_of_unmarshal {data : Option Json} {d : ToolResultData}
    (h : ToolResultData.unmarshal data = .ok d) : Log.resultID data = .ok d.toolCallID := by
  cases data with
  | none => cases h
  | some j =>
    refine Json.storeInto_first (π := ToolResultData.toolCallID) rfl ?_ ?_ h
    · intro cur v next hs
      obtain ⟨x,hx,hr⟩ := bind_ok hs
      cases hr
      exact congrArg (fun r => r >>= fun s => pure s) hx
    · intro r hr cur v next hs
      simp only [List.mem_cons,List.not_mem_nil,or_false] at hr
      rcases hr with rfl | rfl | rfl
      · obtain ⟨x,_,hr⟩ := bind_ok hs
        cases hr
        rfl
      · obtain ⟨wire,_,hs⟩ := bind_ok hs
        obtain ⟨content,_,hr⟩ := bind_ok hs
        cases hr
        rfl
      · obtain ⟨x,_,hr⟩ := bind_ok hs
        cases hr
        rfl

/-- A compaction that passes the check names a tool result of the log under its call id. -/
lemma checkCompaction_ok {events : List Event} {c : CompactionData}
    (h : Log.checkCompaction events c = .ok ()) (hne : c.resultSeq ≠ 0) :
    ∃ e ∈ events, e.seq = c.resultSeq ∧ e.type = .toolResult ∧
      Log.resultID e.data = .ok c.toolCallID := by
  unfold Log.checkCompaction at h
  rw [if_neg hne] at h
  cases he : events[events.findIdx (fun e => e.seq ≥ c.resultSeq)]? with
  | none =>
    rw [he] at h
    cases h
  | some e =>
    rw [he] at h
    change (if _ then _ else _) = _ at h
    split_ifs at h with hbad
    push Not at hbad
    obtain ⟨id,hid,h⟩ := bind_ok h
    split_ifs at h with hn
    push Not at hn
    rw [hn] at hid
    exact ⟨e,List.mem_of_getElem? he,hbad.1,hbad.2,atEvent_ok hid⟩

lemma forall₂_split {α β : Type} {R : α → β → Prop} {as : List α} {a : α} {as' : List α}
    {bs : List β} (h : List.Forall₂ R (as ++ a :: as') bs) :
    ∃ ys y ys', bs = ys ++ y :: ys' ∧ List.Forall₂ R as ys ∧ R a y ∧ List.Forall₂ R as' ys' := by
  induction as generalizing bs with
  | nil =>
    cases h with
    | cons hy hys => exact ⟨[],_,_,rfl,.nil,hy,hys⟩
  | cons x as ih =>
    cases h with
    | cons hx hxs =>
      obtain ⟨ys,y,ys',rfl,h1,h2,h3⟩ := ih hxs
      exact ⟨_ :: ys,y,ys',rfl,.cons hx h1,h2,h3⟩

/-- A result entry carries the sequence number of the event it was read from. -/
lemma Entry.Reads.seq {e : Event} {seq : ℤ} {d : ToolResultData} (h : Reads e (.result seq d)) :
    e.seq = seq ∧ e.type = .toolResult := by
  rcases read_cases h with ⟨_,_,_,hx⟩ | ⟨_,_,_,hx⟩ | ⟨_,ht,_,_,hx⟩ | ⟨_,_,_,hx⟩ | ⟨_,hx⟩
  · cases hx
  · split_ifs at hx
  · cases hx
    exact ⟨rfl,ht⟩
  · cases hx
  · cases hx

lemma Entry.Reads.toolResult {e : Event} {x : Entry} (h : Reads e x) (ht : e.type = .toolResult) :
    ∃ d, ToolResultData.unmarshal e.data = .ok d ∧ x = .result e.seq d := by
  rcases read_cases h with ⟨_,h,_⟩ | ⟨_,h,_⟩ | ⟨d,_,hd,_,rfl⟩ | ⟨_,h,_⟩ | ⟨h,_⟩
  · rw [ht] at h
    cases h
  · rw [ht] at h
    cases h
  · exact ⟨d,hd,rfl⟩
  · rw [ht] at h
    cases h
  · rw [ht] at h
    cases h

lemma Ledger.agree_of_reads (l : Ledger) {c : CompactionData} (hpos : 0 < c.resultSeq)
    {es : List Event} {xs : List Entry} (h : List.Forall₂ Entry.Reads es xs)
    (hne : ∀ e ∈ es, e.seq ≠ c.resultSeq) : ∀ x ∈ xs, l.Agree (l.record (.compaction c)) x := by
  induction h with
  | nil => simp
  | cons hx _ ih =>
    rename_i e x es xs _
    intro y hy
    rcases List.mem_cons.mp hy with rfl | hy
    · cases y with
      | neutral => trivial
      | message m => trivial
      | compaction c => trivial
      | result seq d =>
        have hs := hx.seq.1
        refine (l.resultContent_record_of_ne hpos ?_ d).symm
        rw [← hs]
        exact hne e (by simp)
    · exact ih (fun a ha => hne a (by simp [ha])) y hy

/-- The transcript of a log around one of its results. -/
structure Around (events : List Event) (r : Event) (pre post : List Event) (xpre : List Entry)
    (d : ToolResultData) (xpost : List Entry) : Prop where
  reads : List.Forall₂ Entry.Reads events (xpre ++ .result r.seq d :: xpost)
  before : events.takeWhile (fun e => e.seq ≠ r.seq) = pre
  data : ToolResultData.unmarshal r.data = .ok d
  readsBefore : List.Forall₂ Entry.Reads pre xpre
  readsAfter : List.Forall₂ Entry.Reads post xpost
  otherBefore : ∀ a ∈ pre, a.seq ≠ r.seq
  otherAfter : ∀ a ∈ post, a.seq ≠ r.seq

lemma Log.Coherent.around {l : Log} (hl : l.Coherent) {r : Event} (hr : r ∈ l.events)
    (ht : r.type = .toolResult) :
    ∃ pre post xpre d xpost, Around l.events r pre post xpre d xpost := by
  obtain ⟨pre,post,hsplit⟩ := List.append_of_mem hr
  obtain ⟨xs,hxs,_⟩ := hl.reads
  have hord := hl.ordered
  rw [hsplit,List.pairwise_append,List.pairwise_cons] at hord
  have hpre : ∀ a ∈ pre, a.seq ≠ r.seq := by
    intro a ha
    have := hord.2.2 a ha r (by simp)
    omega
  have hpost : ∀ a ∈ post, a.seq ≠ r.seq := by
    intro a ha
    have := hord.2.1.1 a ha
    omega
  have htake : l.events.takeWhile (fun e => e.seq ≠ r.seq) = pre := by
    rw [hsplit,List.takeWhile_append_of_pos (by simpa using hpre),
      List.takeWhile_cons_of_neg (by simp),List.append_nil]
  have hxs' := hxs
  rw [hsplit] at hxs'
  obtain ⟨xpre,x,xpost,rfl,hxpre,hx,hxpost⟩ := forall₂_split hxs'
  obtain ⟨d,hd,rfl⟩ := hx.toolResult ht
  exact ⟨pre,post,xpre,d,xpost,hxs,htake,hd,hxpre,hxpost,hpre,hpost⟩

lemma Around.place {events pre post : List Event} {r : Event} {xpre xpost : List Entry}
    {d : ToolResultData} (h : Around events r pre post xpre d xpost) (l : Ledger) :
    resultPlace events r.seq = some (historyOf l xpre).nextPlace := by
  simp only [resultPlace,h.before,rebuildProjection_reads h.readsBefore]
  rw [project_toHistory,nextPlace_historyOf]

/-- The result an accepted compaction names. -/
lemma Log.Coherent.named {l : Log} (hl : l.Coherent) {c : CompactionData} (hpos : 0 < c.resultSeq)
    (hcheck : Log.checkCompaction l.events c = .ok ()) :
    ∃ r pre post xpre d xpost, Around l.events r pre post xpre d xpost ∧ r.seq = c.resultSeq ∧
      d.toolCallID = c.toolCallID := by
  obtain ⟨r,hr,hseq,htype,hid⟩ := checkCompaction_ok hcheck (ne_of_gt hpos)
  obtain ⟨pre,post,xpre,d,xpost,h⟩ := hl.around hr htype
  exact ⟨r,pre,post,xpre,d,xpost,h,hseq,
    Except.ok.inj ((resultID_of_unmarshal h.data).symm.trans hid)⟩

/-- On the transcript: the record replaces one block of the projection. -/
lemma Around.derived {events pre post : List Event} {r : Event} {c : CompactionData}
    {xpre xpost : List Entry} {d : ToolResultData} (h : Around events r pre post xpre d xpost)
    (hpos : 0 < c.resultSeq) (hseq : r.seq = c.resultSeq) (hid : d.toolCallID = c.toolCallID) :
    ∃ i j old, resultPlace events c.resultSeq = some (i,j) ∧
      (project (xpre ++ .result r.seq d :: xpost)).Holds i j
      (.toolResult c.toolCallID old d.isError) ∧
      (project (xpre ++ .result r.seq d :: xpost ++ [.compaction c])).derived =
        setBlock (project (xpre ++ .result r.seq d :: xpost)).derived i j
          (.toolResult c.toolCallID [.text c.text] d.isError) := by
  have hplace := h.place (ledgerOf (xpre ++ .result r.seq d :: xpost))
  have hpre := h.otherBefore
  have hpost := h.otherAfter
  generalize hl : ledgerOf (xpre ++ .result r.seq d :: xpost) = l at hplace
  rw [hseq] at hplace hpre hpost hl ⊢
  have hself := l.resultContent_record_self hpos hid
  have hholds := historyOf_holds l xpre xpost c.resultSeq d
  have hset := @historyOf_setPlace _ _ xpre xpost c.resultSeq d
    (l.agree_of_reads hpos h.readsBefore hpre) (l.agree_of_reads hpos h.readsAfter hpost)
  rw [hid,hself] at hset
  rw [hid] at hholds
  refine ⟨_,_,l.resultContent c.resultSeq d,hplace,?_,?_⟩
  · rw [project_toHistory,hl]
    exact hholds
  · rw [project_toHistory,project_toHistory,ledgerOf_append_singleton,historyOf_append_singleton,
      hl,hset]
    exact History.derived_setPlace hholds.fills

/-- A compaction the log accepts replaces the content of the one result it names; every other
block, and the grouping of results into messages, stays. -/
theorem append_compaction_frame {start : Log} (hs : start.Started) (calls : List Call)
    {payload : Payload} {l' : Log} {e : Event} {c : CompactionData}
    (ha : (start.run calls).append .toolResultCompacted payload = .ok (l',e))
    (hc : CompactionData.unmarshal e.data = .ok c) (hpos : 0 < c.resultSeq) :
    ∃ before w after w' i j m old err, (start.run calls).projected = .ok (before,w) ∧
      l'.projected = .ok (after,w') ∧
      resultPlace (start.run calls).events c.resultSeq = some (i,j) ∧
      before[i]? = some m ∧ m.content[j]? = some (.toolResult c.toolCallID old err) ∧
      after = before.set i
        { m with content := m.content.set j (.toolResult c.toolCallID [.text c.text] err) } := by
  have hl := hs.coherent.run calls
  generalize start.run calls = l at ha hl ⊢
  have hl' := hl.append ha
  obtain ⟨projected,happ⟩ := append_ok ha
  obtain ⟨c',hc',hd⟩ := bind_ok happ.decoded
  obtain ⟨_,hcheck,_⟩ := bind_ok hd
  rw [Except.ok.inj ((during_ok hc').symm.trans hc)] at hcheck
  obtain ⟨r,pre,post,xpre,d,xpost,hn,hseq,hid⟩ := hl.named hpos hcheck
  have hys : List.Forall₂ Entry.Reads l'.events
      (xpre ++ .result r.seq d :: xpost ++ [.compaction c]) := by
    rw [happ.events]
    exact forall₂_snoc hn.reads (Entry.reads_compaction happ.type hc)
  obtain ⟨_,w,_,hproj,_⟩ := hl.derives hn.reads
  obtain ⟨_,w',_,hproj',_⟩ := hl'.derives hys
  obtain ⟨i,j,old,hplace,hholds,hset⟩ := hn.derived hpos hseq hid
  obtain ⟨m,hm,hb⟩ := hholds.derived
  refine ⟨_,w,_,w',i,j,m,old,d.isError,hproj,hproj',hplace,hm,hb,?_⟩
  rw [hset]
  exact setBlock_eq_set hm

theorem append_compaction_frame_resultCalls : ∃ l' e,
    (newLog.run resultCalls).append .toolResultCompacted (some (.ok resultCompaction.marshal)) =
      .ok (l',e) ∧ CompactionData.unmarshal e.data = .ok resultCompaction ∧
    ∃ before w after w' i j m old err, (newLog.run resultCalls).projected = .ok (before,w) ∧
      l'.projected = .ok (after,w') ∧
      resultPlace (newLog.run resultCalls).events 3 = some (i,j) ∧
      before[i]? = some m ∧ m.content[j]? = some (.toolResult "c1" old err) ∧
      after = before.set i
        { m with content := m.content.set j (.toolResult "c1" [.text "short"] err) } := by
  have hok : (((newLog.run resultCalls).append .toolResultCompacted
      (some (.ok resultCompaction.marshal))).toOption.bind
        (fun r => (CompactionData.unmarshal r.2.data).toOption)) = some resultCompaction := by
    decide
  cases ha : (newLog.run resultCalls).append .toolResultCompacted
      (some (.ok resultCompaction.marshal)) with
  | error e =>
    rw [ha] at hok
    cases hok
  | ok r =>
    rw [ha] at hok
    have hc : CompactionData.unmarshal r.2.data = .ok resultCompaction := by
      change (CompactionData.unmarshal r.2.data).toOption = _ at hok
      cases hu : CompactionData.unmarshal r.2.data with
      | ok c =>
        rw [hu] at hok
        rw [Option.some.inj hok]
      | error e =>
        rw [hu] at hok
        cases hok
    exact ⟨r.1,r.2,rfl,hc,append_compaction_frame (.inl rfl) resultCalls ha hc (by decide)⟩

end Manvi.Session
