import Manvi.Agent.Compaction
import Manvi.Session.Compacted

/-! Compaction is one-way: a run of appends and compact steps never rewrites a compacted result. -/
namespace Manvi.Agent
open Manvi.Encoding Manvi.Encoding.Json Manvi.LLM Manvi.Session

/-! The sequence a step records survives the encoding and the scrubber. -/

lemma putInt_ofInt_eq {cur n v : ℤ} (h : putInt cur (ofInt n) = .ok v) : v = n := by
  simp only [ofInt,putInt,intValue,decide_eq_true_eq] at h
  split at h
  · rename_i w hw
    cases h
    split_ifs at hw with hr hn
    · cases hw
      omega
    · cases hw
      omega
  · cases h

lemma foldEq_trans {k a b : String} (ha : foldEq k a = true) (hb : foldEq k b = true) :
    foldEq a b = true := by
  simp only [foldEq,beq_iff_eq] at ha hb ⊢
  rw [← ha,hb]

lemma storeMember_resultSeq {n : ℤ} {cur x : CompactionData} {m : String × Json}
    (hm : foldEq m.1 "result_seq" = true → m.2 = ofInt n)
    (h : storeMember CompactionData.fields cur m = .ok x) :
    x.resultSeq = if foldEq m.1 "result_seq" then n else cur.resultSeq := by
  unfold storeMember at h
  cases hf : CompactionData.fields.find? (fun f => foldEq m.1 f.1) with
  | none =>
    rw [hf] at h
    cases h
    have hn : ¬ foldEq m.1 "result_seq" = true :=
      List.find?_eq_none.mp hf (intField "result_seq" CompactionData.resultSeq
        fun d n => { d with resultSeq := n }) (by simp [CompactionData.fields])
    rw [if_neg hn]
  | some f =>
    rw [hf] at h
    have hmatch : foldEq m.1 f.1 = true := by simpa using List.find?_some hf
    have hother : foldEq f.1 "result_seq" = false → foldEq m.1 "result_seq" = false := by
      intro hno
      by_contra hyes
      rw [foldEq_trans hmatch (by simpa using hyes)] at hno
      cases hno
    have hmem := List.mem_of_find?_eq_some hf
    simp only [CompactionData.fields,List.mem_cons,List.not_mem_nil,or_false] at hmem
    rcases hmem with rfl | rfl | rfl | rfl | rfl
    · obtain ⟨v,_,hr⟩ := bind_ok h
      cases hr
      rw [hother (by decide)]
      rfl
    · obtain ⟨v,hv,hr⟩ := bind_ok h
      cases hr
      have hyes : foldEq m.1 "result_seq" = true := hmatch
      rw [hm hyes] at hv
      rw [if_pos hyes]
      exact putInt_ofInt_eq hv
    · obtain ⟨v,_,hr⟩ := bind_ok h
      cases hr
      rw [hother (by decide)]
      rfl
    · obtain ⟨v,_,hr⟩ := bind_ok h
      cases hr
      rw [hother (by decide)]
      rfl
    · obtain ⟨v,_,hr⟩ := bind_ok h
      cases hr
      rw [hother (by decide)]
      rfl

/-- Decoding a record reads the sequence its members carry. -/
lemma storeMembers_resultSeq {n : ℤ} {ms : List (String × Json)} {cur x : CompactionData}
    (hm : ∀ m ∈ ms, foldEq m.1 "result_seq" = true → m.2 = ofInt n)
    (h : ms.foldlM (storeMember CompactionData.fields) cur = .ok x) :
    x.resultSeq = if ms.any (fun m => foldEq m.1 "result_seq") then n else cur.resultSeq := by
  induction ms generalizing cur with
  | nil =>
    cases h
    rfl
  | cons m ms ih =>
    rw [List.foldlM_cons] at h
    obtain ⟨y,hy,h⟩ := bind_ok h
    have hy' := storeMember_resultSeq (hm m (by simp)) hy
    have hx := ih (fun a ha => hm a (by simp [ha])) h
    rw [hx,hy',List.any_cons]
    cases foldEq m.1 "result_seq" with
    | true => simp
    | false => rw [Bool.false_or]; rfl

/-- The members of a record whose strings went through the scrubber. -/
def recordMembers (d : CompactionData) (scrub : String → String) : List (String × Json) :=
  [("tool_call_id",.str (scrub d.toolCallID))] ++
    (if d.resultSeq = 0 then [] else [("result_seq",ofInt d.resultSeq)]) ++
    [("text",.str (scrub d.text)),("from_bytes",ofInt d.fromBytes),("to_bytes",ofInt d.toBytes)]

lemma scrubPayload_record (d : CompactionData) (f : String → String) : ∃ flag,
    scrubPayload .toolResultCompacted d.marshal f =
      .ok (.obj (sortMembers (recordMembers d f)),flag) := by
  by_cases hz : d.resultSeq = 0
  · simp [scrubPayload,CompactionData.marshal,recordMembers,hz,rewritePayload,blockKindAt,
      isContentPath,rewriteMembers,opaqueKey,ofInt,bind,Except.bind,pure,Except.pure,
      renameKeys,schemaKeys]
  · simp [scrubPayload,CompactionData.marshal,recordMembers,hz,rewritePayload,blockKindAt,
      isContentPath,rewriteMembers,opaqueKey,ofInt,bind,Except.bind,pure,Except.pure,
      renameKeys,schemaKeys]

lemma recordMembers_resultSeq (d : CompactionData) (f : String → String) {ms : List (String × Json)}
    (hp : ms.Perm (recordMembers d f)) {c : CompactionData}
    (hc : CompactionData.unmarshal (some (.obj ms)) = .ok c) : c.resultSeq = d.resultSeq := by
  have h1 : foldEq "tool_call_id" "result_seq" = false := by decide
  have h2 : foldEq "result_seq" "result_seq" = true := by decide
  have h3 : foldEq "text" "result_seq" = false := by decide
  have h4 : foldEq "from_bytes" "result_seq" = false := by decide
  have h5 : foldEq "to_bytes" "result_seq" = false := by decide
  have hm : ∀ m ∈ ms, foldEq m.1 "result_seq" = true → m.2 = ofInt d.resultSeq := by
    intro m hmem hyes
    have hmem := hp.mem_iff.mp hmem
    unfold recordMembers at hmem
    split_ifs at hmem with hz <;> simp at hmem
    · rcases hmem with rfl | rfl | rfl | rfl <;> simp_all
    · rcases hmem with rfl | rfl | rfl | rfl | rfl <;> simp_all
  have hany : ms.any (fun m => foldEq m.1 "result_seq") = decide (d.resultSeq ≠ 0) := by
    rw [hp.any_eq]
    unfold recordMembers
    split_ifs with hz <;> simp [hz,h1,h2,h3,h4,h5]
  have hx := storeMembers_resultSeq hm hc
  rw [hx,hany]
  by_cases hz : d.resultSeq = 0
  · simp [hz,CompactionData.zero]
  · simp [hz]

lemma append_encoded {l l' : Log} {t : EventType} {payload : Payload} {e : Event}
    (h : l.append t payload = .ok (l',e)) : l.encodePayload t payload = .ok e.data := by
  obtain ⟨raw,hr,h⟩ := bind_ok h
  obtain ⟨_,_,h⟩ := bind_ok h
  obtain ⟨projected,_,h⟩ := bind_ok h
  cases h
  exact hr

/-- An accepted step is recorded under the sequence it was given. -/
lemma append_record_resultSeq {l l' : Log} {e : Event} {d c : CompactionData}
    (ha : l.append .toolResultCompacted (some (.ok d.marshal)) = .ok (l',e))
    (hc : CompactionData.unmarshal e.data = .ok c) : c.resultSeq = d.resultSeq := by
  have he := append_encoded ha
  cases hs : l.scrub with
  | none =>
    have hdata : e.data = some (.obj (recordMembers d id)) := by
      simp only [Log.encodePayload,hs] at he
      exact (Except.ok.inj he).symm
    rw [hdata] at hc
    exact recordMembers_resultSeq d id (List.Perm.refl _) hc
  | some f =>
    obtain ⟨flag,hf⟩ := scrubPayload_record d f
    have hdata : e.data = some (.obj (sortMembers (recordMembers d f))) := by
      simp only [Log.encodePayload,hs] at he
      change (do return some (← during _ (scrubPayload .toolResultCompacted d.marshal f)).1) =
        _ at he
      rw [hf] at he
      exact (Except.ok.inj he).symm
    rw [hdata] at hc
    exact recordMembers_resultSeq d f (List.perm_insertionSort _ _) hc

/-! What a plan names. -/

/-- The key of the result a step shortens. -/
def CompactionStep.key (s : CompactionStep) : ResultKey := ⟨s.toolCallID,s.occurrence⟩

/-- A plan names each result once, and none that the skip sets cover. -/
structure CompactionPlan.Spares (plan : CompactionPlan) (already : List CallID)
    (done : List ResultKey) : Prop where
  nodup : (plan.steps.map CompactionStep.key).Nodup
  spares : ∀ s ∈ plan.steps, 0 < s.occurrence ∧ s.toolCallID ∉ already ∧ s.key ∉ done

namespace Planning
variable (p : Planning)

lemma takeSteps_sublist (floor need saved : ℤ) (cs : List Candidate) :
    ((p.takeSteps floor need saved cs).1.map CompactionStep.key).Sublist
    (cs.map Candidate.key) := by
  induction cs generalizing saved with
  | nil => exact .slnil
  | cons c cs ih =>
    unfold takeSteps
    split_ifs with hneed
    · exact List.nil_sublist _
    · dsimp only
      split_ifs with hw
      · exact (ih _).cons_cons c.key
      · exact (ih _).cons c.key

lemma candidate_key {key : ResultKey} {content : List ContentBlock} {c : Candidate}
    (h : p.candidate key content = some c) : c.key = key := by
  unfold candidate at h
  dsimp only at h
  split_ifs at h
  cases h
  rfl

lemma eligible_sublist (messages : List Message) (already : List CallID) (done : List ResultKey) :
    ((p.eligible messages already done).map Candidate.key).Sublist
      ((numbered Prod.fst [] (toolResults
        (messages.take (messages.length-protectedTail)))).map Prod.fst) := by
  unfold eligible
  dsimp only
  generalize numbered Prod.fst [] (toolResults (messages.take (messages.length-protectedTail))) = ks
  induction ks with
  | nil => exact .slnil
  | cons k ks ih =>
    rw [List.filterMap_cons]
    cases hk : (if k.1.id ∈ already ∨ k.1 ∈ done then none else p.candidate k.1 k.2.2) with
    | none => exact ih.cons _
    | some c =>
      have hkey : c.key = k.1 := by
        split_ifs at hk
        exact p.candidate_key hk
      rw [List.map_cons,List.map_cons,hkey]
      exact ih.cons_cons k.1

lemma eligible_spared {messages : List Message} {already : List CallID} {done : List ResultKey}
    {c : Candidate} (h : c ∈ p.eligible messages already done) :
    0 < c.key.occurrence ∧ c.key.id ∉ already ∧ c.key ∉ done := by
  obtain ⟨k,hk,hc⟩ := List.mem_filterMap.mp h
  split_ifs at hc with hskip
  have hkey := p.candidate_key hc
  have hocc := numbered_occurrence hk
  push Not at hskip
  rw [hkey]
  exact ⟨by omega,hskip⟩

/-- The planner never names a result that the skip sets cover, nor one result twice. -/
theorem planCompactionCalibrated_spares (messages : List Message) (already : List CallID)
    (done : List ResultKey) :
    (p.planCompactionCalibrated messages already done).Spares already done := by
  unfold planCompactionCalibrated
  dsimp only
  split_ifs with hfit hnone
  · exact ⟨List.nodup_nil,by simp⟩
  · exact ⟨List.nodup_nil,by simp⟩
  · generalize p.scale (countRequestTokens p.imageSize p.systemPrompt p.tools messages) -
      p.budget.target = need
    have hsub := p.takeSteps_sublist (p.chooseFloor need (p.eligible messages already done)) need 0
      (p.eligible messages already done)
    refine ⟨(numbered_nodup _ _).sublist (hsub.trans (p.eligible_sublist messages already done)),?_⟩
    intro s hs
    obtain ⟨c,hc,hkey⟩ := List.mem_map.mp (hsub.subset (List.mem_map_of_mem hs))
    have hspared := p.eligible_spared hc
    rw [hkey] at hspared
    exact hspared

end Planning

/-! A compact step only grows the log. -/

open Relation in
/-- Recording steps under distinct sequences of uncompacted results. -/
lemma applySteps_grows {l : Log} (hl : l.Coherent) {steps : List CompactionStep} {seqs : List ℤ}
    (hs : List.Forall₂ (fun s seq => 0 < s.occurrence ∧ 0 < seq) steps seqs) (hnd : seqs.Nodup)
    (hfree : ∀ r ∈ l.results, r.seq ∈ seqs → l.compactedText r = none) :
    ReflTransGen Grows l (applySteps l steps seqs).1 := by
  induction hs generalizing l with
  | nil => exact .refl
  | cons hstep hrest ih =>
    rename_i step seq steps seqs
    obtain ⟨hocc,hpos⟩ := hstep
    obtain ⟨hnot,hnd⟩ := List.nodup_cons.mp hnd
    unfold applySteps
    simp only [gt_iff_lt,hocc,if_true,List.headD_cons,List.tail_cons]
    cases ha : l.append .toolResultCompacted (some (.ok (step.record seq).marshal)) with
    | error e => exact .refl
    | ok r =>
      obtain ⟨l',e⟩ := r
      obtain ⟨x,hx,he,hnamed⟩ := Grows.reads_of_append hl ha
      have hseq : ∀ c, x = .compaction c → c.resultSeq = seq := by
        rintro c rfl
        exact append_record_resultSeq ha hx.compaction.2
      have hfresh : ∀ c, Entry.Reads e (.compaction c) → l.Fresh c := by
        intro c hc r hn
        obtain rfl : x = .compaction c := Except.ok.inj (hx.symm.trans hc)
        have hcs := hseq c rfl
        have hmem := (hnamed c rfl).2 (by omega)
        have hrs : r.seq = c.resultSeq := by
          have := hn.2
          omega
        have hr : r ∈ l.results := by
          have : r = ⟨c.resultSeq,c.toolCallID⟩ := by
            rw [← hrs,hn.1]
          rw [this]
          exact hmem
        exact hfree r hr (by rw [hrs,hcs]; simp)
      have hstep : Grows l l' := .append ha hfresh
      refine .head hstep (ih (hl.append ha) hnd ?_)
      intro r hr hmem
      have hne : r.seq ≠ seq := fun h => hnot (h ▸ hmem)
      obtain ⟨xs,hxs,_⟩ := hl.reads
      have hys : List.Forall₂ Entry.Reads l'.events (xs ++ [x]) := by
        rw [he]
        exact forall₂_snoc hxs hx
      have htype : e.type = .toolResultCompacted := (append_ok ha).choose_spec.type
      obtain ⟨c,rfl⟩ : ∃ c, x = .compaction c := by
        by_contra hno
        push Not at hno
        exact hx.not_compaction hno htype
      have hcs := hseq c rfl
      rw [Log.results_eq hys,List.filterMap_append] at hr
      have hr' : r ∈ l.results := by
        rw [Log.results_eq hxs]
        simpa [Entry.ref?] using hr
      rw [Log.compactedText_eq hys,ledgerOf_append_singleton,
        Ledger.shortened_record_of_ne _ (by omega) (by omega),← Log.compactedText_eq hxs]
      exact hfree r hr' (by simp [hmem])

lemma warm_of_valid {l : Log} (h : l.proj.valid = true) : l.warm = .ok l := by
  simp only [Log.warm,h,if_true]

/-- The plan of a compact step skips what the warm projection of the log says is compacted. -/
lemma planOver_ok {p : Planning} {messages : List Message} {l w : Log} {plan : CompactionPlan}
    (hl : l.Coherent) (h : planOver p messages l = .ok (plan,w)) :
    w.Coherent ∧ w.events = l.events ∧ w.proj.valid = true ∧
      ∃ done, w.compactedResults = .ok (done,w) ∧ plan.Spares w.proj.compacted.keys done := by
  obtain ⟨v,hv,hcoh,hev,hvalid⟩ := hl.warm
  have hwarm := warm_of_valid hvalid
  obtain ⟨held,hheld,h⟩ := bind_ok h
  have hheld2 : held.2 = v := by
    simp only [Log.holdsResults,hv] at hheld
    cases hheld
    rfl
  obtain ⟨planned,hplanned,h⟩ := bind_ok h
  have hplanned2 : planned.2 = v := by
    rw [plannedHistory,hheld2] at hplanned
    split_ifs at hplanned
    · cases hplanned
      rfl
    · obtain ⟨shared,hs,hplanned⟩ := bind_ok hplanned
      obtain ⟨copied,_,hplanned⟩ := bind_ok hplanned
      cases hplanned
      simp only [Log.projected,hwarm] at hs
      cases hs
      rfl
  rw [hplanned2] at h
  obtain ⟨already,halready,h⟩ := bind_ok h
  obtain ⟨done,hdone,h⟩ := bind_ok h
  cases h
  have hkeys : already = v.proj.compacted.keys := by
    simp only [Log.compactedCalls,hvalid,if_true] at halready
    cases halready
    rfl
  have hdone2 : done.2 = v := by
    simp only [Log.compactedResults,hwarm] at hdone
    cases hdone
    rfl
  rw [hdone2,hkeys]
  refine ⟨hcoh,hev,hvalid,done.1,?_,p.planCompactionCalibrated_spares _ _ _⟩
  rw [hdone,← hdone2]

/-- A result the skip sets do not cover is not compacted. -/
lemma compactedText_none_of_spared {w : Log} (hw : w.Coherent) (hv : w.proj.valid = true)
    {done : List ResultKey} (hdone : w.compactedResults = .ok (done,w)) {key : ResultKey}
    {r : ResultRef} (hr : (key,r) ∈ numbered ResultRef.id [] w.proj.results)
    (hid : key.id ∉ w.proj.compacted.keys) (hkey : key ∉ done) : w.compactedText r = none := by
  have hkid : key.id = r.id := numbered_id hr
  rw [hw.compactedText_warm hv]
  have hcomp : w.proj.compacted.get r.id = none := by
    rw [Table.get_eq_none_iff,← hkid]
    exact hid
  unfold Ledger.shortened
  rw [hcomp]
  cases hb : w.proj.bySeq.get r.seq with
  | none => rfl
  | some k =>
    change (if k.id = r.id then some k.text else none) = none
    rw [if_neg]
    intro hk
    apply hkey
    simp only [Log.compactedResults,warm_of_valid hv] at hdone
    cases hdone
    refine List.mem_map.mpr ⟨(key,r),List.mem_filter.mpr ⟨hr,?_⟩,rfl⟩
    simp [hb,hk]

open Relation in
lemma apply_grows {w : Log} (hw : w.Coherent) (hv : w.proj.valid = true) {done : List ResultKey}
    (hdone : w.compactedResults = .ok (done,w)) {plan : CompactionPlan}
    (hp : plan.Spares w.proj.compacted.keys done) : ReflTransGen Grows w (plan.apply w).1 := by
  have hwarm := warm_of_valid hv
  have hkeys : plan.keys = plan.steps.map CompactionStep.key := by
    have : plan.steps.filter (fun s => s.occurrence > 0) = plan.steps :=
      List.filter_eq_self.mpr (fun s hs => by simpa using (hp.spares s hs).1)
    rw [CompactionPlan.keys,this]
    rfl
  unfold CompactionPlan.apply
  cases hr : w.resultSeqs plan.keys with
  | error e =>
    simp only [Log.afterRead,hwarm]
    exact .refl
  | ok r =>
    obtain ⟨seqs,w'⟩ := r
    obtain ⟨hw',hres⟩ := resultSeqs_ok hr
    obtain rfl : w = w' := Except.ok.inj (hwarm.symm.trans hw')
    rw [hkeys] at hres
    have hnodup := hw.results_nodup
    rw [hw.results_warm hv] at hnodup
    refine applySteps_grows hw ?_ (resolved_nodup hnodup hp.nodup hres) ?_
    · rw [List.forall₂_map_left_iff] at hres
      refine forall₂_imp_mem hres ?_
      rintro s hs seq ⟨r,hmem,rfl⟩
      have hr : r ∈ w.results := by
        rw [hw.results_warm hv]
        exact mem_of_numbered hmem
      exact ⟨(hp.spares s hs).1,hw.results_pos hr⟩
    · intro r hr hseq
      obtain ⟨key,hkey,r',hmem,hr'⟩ := forall₂_mem_right hres hseq
      obtain ⟨s,hs,rfl⟩ := List.mem_map.mp hkey
      have hsp := hp.spares s hs
      have hr'mem : r' ∈ w.results := by
        rw [hw.results_warm hv]
        exact mem_of_numbered hmem
      obtain rfl : r' = r := List.inj_on_of_nodup_map hw.results_nodup hr'mem hr hr'
      exact compactedText_none_of_spared hw hv hdone hmem hsp.2.1 hsp.2.2

open Relation in
lemma reportOverflow_grows (p : Planning) (plan : CompactionPlan) {l : Log} :
    ReflTransGen Grows l (reportOverflow p plan l).1 := by
  unfold reportOverflow
  cases ha : l.append .contextOverflow _ with
  | error e => exact .refl
  | ok r =>
    refine .single (.append ha ?_)
    intro c hc
    have ht : r.2.type = .contextOverflow := (append_ok ha).choose_spec.type
    rw [hc.compaction.1] at ht
    cases ht

lemma afterRead_grows {l : Log} (hl : l.Coherent) : Grows l l.afterRead := by
  obtain ⟨w,hw,hc,he,_⟩ := hl.warm
  simp only [Log.afterRead,hw]
  exact .read hc he

open Relation in
/-- A compact step only appends fresh records, whatever history it is handed. -/
theorem compact_grows (p : Planning) (messages : List Message) {l : Log} (hl : l.Coherent) :
    ReflTransGen Grows l (compact p messages l).1 := by
  unfold compact
  cases hp : planOver p messages l with
  | error e => exact .single (afterRead_grows hl)
  | ok r =>
    obtain ⟨plan,w⟩ := r
    obtain ⟨hw,he,hv,done,hdone,hspares⟩ := planOver_ok hl hp
    have hread : Grows l w := .read hw he
    dsimp only
    by_cases hempty : plan.steps = []
    · rw [if_pos hempty]
      split_ifs
      · exact .head hread (reportOverflow_grows p plan)
      · exact .single hread
    · rw [if_neg hempty]
      have happly := apply_grows hw hv hdone hspares
      cases ha : (plan.apply w).2 with
      | error e => exact .head hread happly
      | ok u =>
        dsimp only
        have hover : ReflTransGen Grows (plan.apply w).1
            (if plan.insufficient then reportOverflow p plan (plan.apply w).1
              else ((plan.apply w).1,.ok ())).1 := by
          split_ifs
          · exact reportOverflow_grows p plan
          · exact .refl
        have hall := ReflTransGen.head hread (happly.trans hover)
        generalize (if plan.insufficient then reportOverflow p plan (plan.apply w).1
              else ((plan.apply w).1,.ok ())) = o at hall ⊢
        cases ho : o.2 with
        | error e => exact hall
        | ok u => exact hall.tail (afterRead_grows (growth_coherent hall hl))

/-! Whole sessions. -/

/-- What happens to a log over a session: a call on it, or a compact step. -/
inductive Act where
  | call (c : Call)
  | compact (p : Planning) (messages : List Message)

def act (l : Log) : Act → Log
  | .call c => l.after c
  | .compact p messages => (compact p messages l).1

def run (l : Log) (acts : List Act) : Log := acts.foldl act l

/-- An appended compaction record is fresh in the log it is appended to. -/
def Act.Quiet (l : Log) : Act → Prop
  | .call (.append t payload) => ∀ l' e c, l.append t payload = .ok (l',e) →
    Entry.Reads e (.compaction c) → l.Fresh c
  | _ => True

def QuietRun : Log → List Act → Prop
  | _,[] => True
  | l,a :: rest => a.Quiet l ∧ QuietRun (act l a) rest

open Relation in
lemma act_grows {l : Log} (hl : l.Coherent) {a : Act} (hq : a.Quiet l) :
    ReflTransGen Grows l (act l a) := by
  cases a with
  | compact p messages => exact compact_grows p messages hl
  | call c =>
    cases c with
    | append t payload =>
      simp only [act,Log.after]
      cases ha : l.append t payload with
      | error e => exact .refl
      | ok r => exact .single (.append ha (fun c hc => hq r.1 r.2 c ha hc))
    | compactedCalls => exact .refl
    | deriveMessages => exact .single (afterRead_grows hl)
    | compactedResults => exact .single (afterRead_grows hl)
    | holdsResults msgs => exact .single (afterRead_grows hl)
    | ignoredCompactions => exact .single (afterRead_grows hl)
    | resultSeqs keys => exact .single (afterRead_grows hl)
    | setScrubber scrub => exact .single (.read (hl.after (.setScrubber scrub)) rfl)
    | setSensitiveScrubber scrub =>
      exact .single (.read (hl.after (.setSensitiveScrubber scrub)) rfl)

open Relation in
lemma run_grows {l : Log} (hl : l.Coherent) {acts : List Act} (hq : QuietRun l acts) :
    ReflTransGen Grows l (run l acts) := by
  induction acts generalizing l with
  | nil => exact .refl
  | cons a acts ih =>
    have hstep := act_grows hl hq.1
    exact hstep.trans (ih (growth_coherent hstep hl) hq.2)

@[simp] lemma quietRun_append {l : Log} {acts later : List Act} :
    QuietRun l (acts ++ later) ↔ QuietRun l acts ∧ QuietRun (run l acts) later := by
  induction acts generalizing l with
  | nil => simp [QuietRun,run]
  | cons a acts ih =>
    have h := @ih (act l a)
    simp only [List.cons_append,QuietRun,h,run,List.foldl_cons,and_assoc]

/-- In a session that appends no compaction record for what is compacted already, a compacted
result keeps its text in every later state, and a result receives one record at most. -/
theorem compaction_one_way {start : Log} (hs : start.Started) (acts later : List Act)
    (hq : QuietRun start (acts ++ later)) (r : ResultRef) :
    (∀ t, r ∈ (run start acts).results → (run start acts).compactedText r = some t →
      (run start acts).projectedContent r.seq = some [.text t] ∧
      (run start (acts ++ later)).compactedText r = some t ∧
      (run start (acts ++ later)).projectedContent r.seq = some [.text t]) ∧
    (r ∈ (run start (acts ++ later)).results →
      ∃ new, (run start (acts ++ later)).events = (run start acts).events ++ new ∧
        recordsNaming new r ≤ if (run start acts).compactedText r = none then 1 else 0) := by
  obtain ⟨hq1,hq2⟩ := quietRun_append.mp hq
  have hrun : run start (acts ++ later) = run (run start acts) later := List.foldl_append
  have hl := growth_coherent (run_grows hs.coherent hq1) hs.coherent
  rw [hrun]
  have hgrow := run_grows hl hq2
  have hl' := growth_coherent hgrow hl
  constructor
  · intro t hr ht
    have hr' := growth_results hgrow hl r hr
    obtain ⟨new,hk⟩ := growth_kept hgrow hl (hl'.compatible hr')
    have ht' := hk.keeps t ht
    exact ⟨hl.projectedContent_compacted hr ht,ht',hl'.projectedContent_compacted hr' ht'⟩
  · intro hr
    obtain ⟨new,hk⟩ := growth_kept hgrow hl (hl'.compatible hr)
    refine ⟨new,hk.events,?_⟩
    have hfew := hk.few
    split_ifs with hnone
    · omega
    · rw [if_pos (Option.isSome_iff_ne_none.mpr hnone)] at hfew
      omega

/-- A second record for one result, appended directly. -/
def secondRecord : List Act :=
  [.call (.append .toolResultCompacted
    (some (.ok { resultCompaction with text := "other" }.marshal)))]

/-- Append does not refuse a second record for one result, and the later text is projected. -/
theorem recompaction_rewrites :
    let acts := compactingCalls.map Act.call
    newLog.Started ∧ ⟨3,"c1"⟩ ∈ (run newLog acts).results ∧
      (run newLog acts).compactedText ⟨3,"c1"⟩ = some "short" ∧
      (run newLog acts).projectedContent 3 = some [.text "short"] ∧
      (run newLog (acts ++ secondRecord)).projectedContent 3 = some [.text "other"] ∧
      recordsNaming (run newLog (acts ++ secondRecord)).events ⟨3,"c1"⟩ = 2 := by
  intro acts
  have hcoh : ∀ calls : List Call, (run newLog (calls.map Act.call)).Coherent := by
    intro calls
    have : run newLog (calls.map Act.call) = newLog.run calls := List.foldl_map
    rw [this]
    exact newLog_coherent.run calls
  have hr : ⟨3,"c1"⟩ ∈ (run newLog acts).results := by decide
  have ht : (run newLog acts).compactedText ⟨3,"c1"⟩ = some "short" := by decide
  have hr' : ⟨3,"c1"⟩ ∈ (run newLog (acts ++ secondRecord)).results := by decide
  have ht' : (run newLog (acts ++ secondRecord)).compactedText ⟨3,"c1"⟩ = some "other" := by
    decide
  have hlater := hcoh (compactingCalls ++ [.append .toolResultCompacted
    (some (.ok { resultCompaction with text := "other" }.marshal))])
  rw [List.map_append] at hlater
  exact ⟨.inl rfl,hr,ht,(hcoh compactingCalls).projectedContent_compacted hr ht,
    hlater.projectedContent_compacted hr' ht',by decide⟩

/-- A run that appends no compaction record of its own is quiet. -/
lemma quietRun_of_no_records (l : Log) {acts : List Act}
    (h : ∀ payload, Act.call (.append .toolResultCompacted payload) ∉ acts) : QuietRun l acts := by
  induction acts generalizing l with
  | nil => trivial
  | cons a acts ih =>
    refine ⟨?_,ih _ (fun payload hmem => h payload (by simp [hmem]))⟩
    cases a with
    | compact p messages => trivial
    | call c =>
      cases c with
      | append t payload =>
        intro l' e c ha hc
        have ht : e.type = t := (append_ok ha).choose_spec.type
        rw [hc.compaction.1] at ht
        exact absurd (by rw [ht]; simp) (h payload)
      | _ => trivial

/-- A history whose first result is one image, with enough messages after it. -/
def imageActs : List Act :=
  [.call (.append .toolResult (some (.ok (.obj [("tool_call_id",.str "c1"),("content",
    .arr [.obj [("kind",.str "image"),("media_type",.str "image/png"),("data",.str "")]])]))))] ++
  List.replicate 6 (.call (.append .userMessage (some (.ok (.obj [("message",.obj
    [("role",.str "user"),("content",
      .arr [.obj [("kind",.str "text"),("text",.str "next")]])])])))))

/-- A window of 4096 tokens, an uncalibrated estimate, and no readable image. -/
def smallWindow : Planning := ⟨"",[],⟨4096,0,0⟩,fun n => n,fun _ => none⟩

def imageCompactions : List Act := imageActs ++ [.compact smallWindow []]

theorem compaction_one_way_imageCompactions :
    QuietRun newLog (imageCompactions ++ imageCompactions) ∧
      (run newLog imageCompactions).projectedContent 1 =
        some [.text "[1 image(s) removed to fit the context window]"] ∧
      (run newLog (imageCompactions ++ imageCompactions)).projectedContent 1 =
        some [.text "[1 image(s) removed to fit the context window]"] ∧
      ∃ new, (run newLog (imageCompactions ++ imageCompactions)).events =
        (run newLog imageCompactions).events ++ new ∧ recordsNaming new ⟨1,"c1"⟩ = 0 := by
  have hq : QuietRun newLog (imageCompactions ++ imageCompactions) := by
    apply quietRun_of_no_records
    intro payload
    simp [imageCompactions,imageActs]
  have ht : (run newLog imageCompactions).compactedText ⟨1,"c1"⟩ =
      some "[1 image(s) removed to fit the context window]" := by decide +kernel
  obtain ⟨hkeep,hfew⟩ :=
    compaction_one_way (.inl rfl) imageCompactions imageCompactions hq ⟨1,"c1"⟩
  obtain ⟨hnow,_,hlater⟩ := hkeep _ (by decide +kernel) ht
  obtain ⟨new,he,hn⟩ := hfew (by decide +kernel)
  refine ⟨hq,hnow,hlater,new,he,?_⟩
  rw [ht] at hn
  exact Nat.le_zero.mp hn

end Manvi.Agent
