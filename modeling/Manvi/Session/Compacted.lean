import Manvi.Session.CompactionFrame

/-! Which results of a log are compacted, and what a log may do to that as it grows. -/
namespace Manvi.Session
open Manvi.Encoding Manvi.LLM

/-- The record applies to the result: it names its sequence, or only its call id. -/
def CompactionData.Names (c : CompactionData) (r : ResultRef) : Prop :=
  c.toolCallID = r.id ∧ (c.resultSeq ≤ 0 ∨ c.resultSeq = r.seq)

instance (c : CompactionData) (r : ResultRef) : Decidable (c.Names r) :=
  inferInstanceAs (Decidable (_ ∧ _))

namespace Log

/-- The results a log holds, in order. -/
def results (l : Log) : List ResultRef :=
  match rebuildProjection l.events with
  | .ok p => p.results
  | .error _ => []

/-- The text a compaction in force puts in the place of a result. -/
def compactedText (l : Log) (r : ResultRef) : Option String :=
  match rebuildProjection l.events with
  | .ok p => p.shortened r.seq r.id
  | .error _ => none

/-- The content a result is projected with. -/
def projectedContent (l : Log) (seq : ℤ) : Option (List ContentBlock) := do
  let place ← resultPlace l.events seq
  let history ← l.projected.toOption
  let m ← history.1[place.1]?
  match m.content[place.2]? with
  | some (.toolResult _ content _) => some content
  | _ => none

/-- The record names no result, held or yet to come, that a compaction already covers. -/
def Fresh (l : Log) (c : CompactionData) : Prop := ∀ r, c.Names r → l.compactedText r = none

end Log

/-- How many of the events are compaction records that name the result. -/
def recordsNaming (events : List Event) (r : ResultRef) : ℕ :=
  events.countP (fun e => e.type = .toolResultCompacted &&
    match CompactionData.unmarshal e.data with
    | .ok c => decide (c.Names r)
    | .error _ => false)

/-! Reading these off a transcript. -/

/-- The results of a transcript. -/
def Entry.ref? : Entry → Option ResultRef
  | .result seq d => some ⟨seq,d.toolCallID⟩
  | _ => none

lemma foldl_record_results (l : Ledger) (xs : List Entry) (h : History) :
    (xs.foldl (History.record l) h).results = h.results ++ xs.filterMap Entry.ref? := by
  induction xs generalizing h with
  | nil => simp
  | cons x xs ih =>
    rw [List.foldl_cons,ih]
    cases x with
    | neutral => rfl
    | compaction c => rfl
    | message m =>
      have hf : h.flushPending.results = h.results := by
        unfold History.flushPending
        split_ifs <;> rfl
      simp only [History.record,History.addMessage,hf]
      rfl
    | result seq d => simp [History.record,History.addResult,Entry.ref?]

lemma historyOf_results (l : Ledger) (xs : List Entry) :
    (historyOf l xs).results = xs.filterMap Entry.ref? := by
  simp [historyOf,foldl_record_results,History.zero]

section reads
variable {l : Log} {xs : List Entry} (h : List.Forall₂ Entry.Reads l.events xs)
include h

lemma Log.results_eq : l.results = xs.filterMap Entry.ref? := by
  simp only [results,rebuildProjection_reads h,project_toHistory,historyOf_results]

lemma Log.compactedText_eq (r : ResultRef) :
    l.compactedText r = (ledgerOf xs).shortened r.seq r.id := by
  simp only [compactedText,rebuildProjection_reads h,project_toLedger]

end reads

@[simp] lemma recordsNaming_append (a b : List Event) (r : ResultRef) :
    recordsNaming (a ++ b) r = recordsNaming a r+recordsNaming b r := by
  simp [recordsNaming,List.countP_append]

lemma Entry.Reads.not_compaction {e : Event} {x : Entry} (h : Reads e x)
    (hx : ∀ c, x ≠ .compaction c) : e.type ≠ .toolResultCompacted := by
  intro ht
  rcases read_cases h with ⟨_,h,_⟩ | ⟨_,h,_⟩ | ⟨_,h,_⟩ | ⟨c,_,_,rfl⟩ | ⟨h,_⟩
  · rw [ht] at h
    cases h
  · rw [ht] at h
    cases h
  · rw [ht] at h
    cases h
  · exact hx c rfl
  · rw [ht] at h
    cases h

lemma Entry.Reads.compaction {e : Event} {c : CompactionData} (h : Reads e (.compaction c)) :
    e.type = .toolResultCompacted ∧ CompactionData.unmarshal e.data = .ok c := by
  rcases read_cases h with ⟨_,_,_,hx⟩ | ⟨_,_,_,hx⟩ | ⟨_,_,_,_,hx⟩ | ⟨_,ht,hc,hx⟩ | ⟨_,hx⟩
  · cases hx
  · split_ifs at hx
  · cases hx
  · cases hx
    exact ⟨ht,hc⟩
  · cases hx

/-- A record counts for a result exactly when its entry names it. -/
lemma recordsNaming_singleton {e : Event} {x : Entry} (h : Entry.Reads e x) (r : ResultRef) :
    recordsNaming [e] r = match x with
      | .compaction c => if c.Names r then 1 else 0
      | _ => 0 := by
  cases x with
  | compaction c =>
    obtain ⟨ht,hc⟩ := h.compaction
    simp [recordsNaming,ht,hc,List.countP_cons]
  | neutral =>
    have ht : e.type ≠ .toolResultCompacted := h.not_compaction (by simp)
    simp [recordsNaming,ht]
  | message m =>
    have ht : e.type ≠ .toolResultCompacted := h.not_compaction (by simp)
    simp [recordsNaming,ht]
  | result seq d =>
    have ht : e.type ≠ .toolResultCompacted := h.not_compaction (by simp)
    simp [recordsNaming,ht]

/-! What one more record does to the text of a result. -/

section ledger
variable (l : Ledger) {c : CompactionData} {r : ResultRef}

lemma Ledger.shortened_record_of_ne (hpos : 0 < c.resultSeq) (hne : r.seq ≠ c.resultSeq) :
    (l.record (.compaction c)).shortened r.seq r.id = l.shortened r.seq r.id := by
  simp only [record,gt_iff_lt,hpos,if_true,shortened,Table.get_set_of_ne _ hne]

lemma Ledger.shortened_record_of_id_ne (hpos : ¬ 0 < c.resultSeq) (hne : r.id ≠ c.toolCallID) :
    (l.record (.compaction c)).shortened r.seq r.id = l.shortened r.seq r.id := by
  simp only [record,gt_iff_lt,hpos,if_false,shortened,Table.get_set_of_ne _ hne]

/-- A fresh record that names the result puts its text in force. -/
lemma Ledger.shortened_record_named (hn : c.Names r) (hf : l.shortened r.seq r.id = none) :
    (l.record (.compaction c)).shortened r.seq r.id = some c.text := by
  obtain ⟨hid,hseq⟩ := hn
  by_cases hpos : 0 < c.resultSeq
  · have hs : c.resultSeq = r.seq := by omega
    rw [hs] at hpos
    simp only [record,gt_iff_lt,hs,hpos,if_true,shortened,hid,Table.get_set_self]
  · simp only [record,gt_iff_lt,hpos,if_false,shortened,hid,Table.get_set_self]
    unfold shortened at hf
    cases hb : l.bySeq.get r.seq with
    | none => rfl
    | some k =>
      rw [hb] at hf
      change (if k.id = r.id then some k.text else _) = none at hf
      change (if k.id = r.id then some k.text else _) = _
      split_ifs at hf ⊢
      rfl

end ledger

/-! A log that grows without covering a result twice. -/

/-- One step of growth: a read, which leaves the events as they are, or an accepted append whose
compaction record, if it is one, is fresh. -/
inductive Grows : Log → Log → Prop
  | read {l l' : Log} (hc : l'.Coherent) (he : l'.events = l.events) : Grows l l'
  | append {l l' : Log} {t : EventType} {payload : Payload} {e : Event}
      (ha : l.append t payload = .ok (l',e))
      (hf : ∀ c, Entry.Reads e (.compaction c) → l.Fresh c) : Grows l l'

/-- What growth does to one result: a compaction stays in force with its text, and the result
receives at most one record, and none once it is compacted. -/
structure Kept (l l' : Log) (r : ResultRef) (new : List Event) : Prop where
  events : l'.events = l.events ++ new
  keeps : ∀ t, l.compactedText r = some t → l'.compactedText r = some t
  few : recordsNaming new r+(if (l.compactedText r).isSome then 1 else 0) ≤ 1
  marked : 0 < recordsNaming new r → (l'.compactedText r).isSome

/-- The log holds no other result at the sequence of this one. -/
def Log.Compatible (l : Log) (r : ResultRef) : Prop := ∀ s ∈ l.results, s.seq = r.seq → s.id = r.id

lemma Kept.refl (l : Log) (r : ResultRef) : Kept l l r [] :=
  ⟨by simp,fun _ h => h,by split_ifs <;> simp [recordsNaming],by simp [recordsNaming]⟩

lemma Kept.trans {l m n : Log} {r : ResultRef} {a b : List Event} (h : Kept l m r a)
    (h' : Kept m n r b) : Kept l n r (a ++ b) := by
  have hsome : (l.compactedText r).isSome → (m.compactedText r).isSome := by
    intro hs
    obtain ⟨t,ht⟩ := Option.isSome_iff_exists.mp hs
    rw [h.keeps t ht]
    rfl
  have hmn : (m.compactedText r).isSome → (n.compactedText r).isSome := by
    intro hs
    obtain ⟨t,ht⟩ := Option.isSome_iff_exists.mp hs
    rw [h'.keeps t ht]
    rfl
  have h1 := h.few
  have h2 := h'.few
  refine ⟨by rw [h'.events,h.events,List.append_assoc],fun t ht => h'.keeps t (h.keeps t ht),?_,?_⟩
  · rw [recordsNaming_append]
    by_cases ha : 0 < recordsNaming a r
    · have hm := h.marked ha
      rw [if_pos hm] at h2
      omega
    · by_cases hl : (l.compactedText r).isSome
      · rw [if_pos (hsome hl)] at h2
        rw [if_pos hl] at h1 ⊢
        omega
      · rw [if_neg hl]
        split_ifs at h2 <;> omega
  · rw [recordsNaming_append]
    intro hpos
    by_cases ha : 0 < recordsNaming a r
    · exact hmn (h.marked ha)
    · exact h'.marked (by omega)

namespace Grows
variable {l l' : Log} {r : ResultRef}

lemma coherent (h : Grows l l') (hl : l.Coherent) : l'.Coherent := by
  cases h with
  | read hc _ => exact hc
  | append ha _ => exact hl.append ha

/-- What an accepted append adds to the transcript; a record that names a sequence names a result
the log holds under the record's call id. -/
lemma reads_of_append {t : EventType} {payload : Payload} {e : Event} (hl : l.Coherent)
    (ha : l.append t payload = .ok (l',e)) : ∃ x, Entry.Reads e x ∧ l'.events = l.events ++ [e] ∧
      ∀ c, x = .compaction c → 0 ≤ c.resultSeq ∧
        (0 < c.resultSeq → ⟨c.resultSeq,c.toolCallID⟩ ∈ l.results) := by
  obtain ⟨projected,happ⟩ := append_ok ha
  obtain ⟨x,hx,_⟩ := append_reads happ
  refine ⟨x,hx,happ.events,?_⟩
  rintro c rfl
  obtain ⟨ht,hc⟩ := hx.compaction
  have hd := happ.decoded
  rw [← happ.type,ht] at hd
  obtain ⟨c',hc',hd⟩ := bind_ok hd
  obtain ⟨_,hcheck,_⟩ := bind_ok hd
  rw [Except.ok.inj ((during_ok hc').symm.trans hc)] at hcheck
  have hnamed : c.resultSeq ≠ 0 → 0 < c.resultSeq := by
    intro hne
    obtain ⟨a,ha',hseq,_⟩ := checkCompaction_ok hcheck hne
    have := (hl.bounded a ha').1
    omega
  refine ⟨by_contra fun hneg => ?_,fun hpos => ?_⟩
  · have := hnamed (by omega)
    omega
  · obtain ⟨r,pre,post,xpre,d,xpost,hn,hseq,hid⟩ := hl.named hpos hcheck
    rw [Log.results_eq hn.reads,List.filterMap_append,List.filterMap_cons]
    simp [Entry.ref?,hseq,hid]

/-- One step of growth, for a result the later log holds or has room for. -/
lemma kept (h : Grows l l') (hl : l.Coherent) (hr : l.Compatible r) : ∃ new, Kept l l' r new := by
  cases h with
  | read hc he =>
    have ht : l'.compactedText r = l.compactedText r := by
      simp only [Log.compactedText,he]
    refine ⟨[],by simp [he],fun t h => by rw [ht,h],?_,by simp [recordsNaming]⟩
    split_ifs <;> simp [recordsNaming]
  | append ha hf =>
    rename_i t payload e
    obtain ⟨x,hx,he,hnamed⟩ := reads_of_append hl ha
    obtain ⟨xs,hxs,_⟩ := hl.reads
    have hys : List.Forall₂ Entry.Reads l'.events (xs ++ [x]) := by
      rw [he]
      exact forall₂_snoc hxs hx
    have ht := Log.compactedText_eq hxs r
    have ht' := Log.compactedText_eq hys r
    rw [ledgerOf_append_singleton] at ht'
    have hcount := recordsNaming_singleton hx r
    have hsame : ∀ y, x = y → (∀ c, y ≠ .compaction c) → ∃ new, Kept l l' r new := by
      rintro y rfl hy
      rw [Ledger.record_of_not_compaction _ hy,← ht] at ht'
      have hz : recordsNaming [e] r = 0 := by
        cases x with
        | compaction c => exact absurd rfl (hy c)
        | neutral => exact hcount
        | message m => exact hcount
        | result seq d => exact hcount
      refine ⟨[e],he,fun t h => by rw [ht',h],?_,by omega⟩
      split_ifs <;> omega
    cases x with
    | neutral => exact hsame _ rfl (by simp)
    | message m => exact hsame _ rfl (by simp)
    | result seq d => exact hsame _ rfl (by simp)
    | compaction c =>
      obtain ⟨hnn,hres⟩ := hnamed c rfl
      change recordsNaming [e] r = if c.Names r then 1 else 0 at hcount
      by_cases hn : c.Names r
      · have hnone := hf c hx r hn
        rw [ht] at hnone
        rw [Ledger.shortened_record_named _ hn hnone] at ht'
        rw [if_pos hn] at hcount
        refine ⟨[e],he,fun t h => ?_,?_,fun _ => by rw [ht']; rfl⟩
        · rw [ht,hnone] at h
          cases h
        · rw [ht,hnone,hcount]
          rfl
      · rw [if_neg hn] at hcount
        have hsame : l'.compactedText r = l.compactedText r := by
          rw [ht,ht']
          by_cases hpos : 0 < c.resultSeq
          · refine Ledger.shortened_record_of_ne _ hpos ?_
            intro hseq
            have hid := hr _ (hres hpos) hseq.symm
            exact hn ⟨hid,.inr hseq.symm⟩
          · refine Ledger.shortened_record_of_id_ne _ hpos ?_
            intro hid
            exact hn ⟨hid.symm,.inl (by omega)⟩
        refine ⟨[e],he,fun t h => by rw [hsame,h],?_,by omega⟩
        rw [hcount]
        split_ifs <;> omega

/-- A log keeps the results it holds. -/
lemma results_subset (h : Grows l l') (hl : l.Coherent) : ∀ s ∈ l.results, s ∈ l'.results := by
  cases h with
  | read hc he =>
    have : l'.results = l.results := by simp only [Log.results,he]
    rw [this]
    exact fun s hs => hs
  | append ha hf =>
    obtain ⟨x,hx,he,_⟩ := reads_of_append hl ha
    obtain ⟨xs,hxs,_⟩ := hl.reads
    have hys : List.Forall₂ Entry.Reads l'.events (xs ++ [x]) := by
      rw [he]
      exact forall₂_snoc hxs hx
    rw [Log.results_eq hxs,Log.results_eq hys,List.filterMap_append]
    exact fun s hs => List.mem_append_left _ hs

end Grows

section star
variable {l l' : Log} {r : ResultRef}

lemma growth_coherent (h : Relation.ReflTransGen Grows l l') (hl : l.Coherent) : l'.Coherent := by
  induction h with
  | refl => exact hl
  | tail _ hs ih => exact hs.coherent ih

lemma growth_results (h : Relation.ReflTransGen Grows l l') (hl : l.Coherent) :
    ∀ s ∈ l.results, s ∈ l'.results := by
  induction h with
  | refl => exact fun s hs => hs
  | tail hm hs ih => exact fun s hr => hs.results_subset (growth_coherent hm hl) s (ih s hr)

/-- Growth over any number of steps keeps the compaction of a result. -/
theorem growth_kept (h : Relation.ReflTransGen Grows l l') (hl : l.Coherent)
    (hr : l'.Compatible r) :
    ∃ new, Kept l l' r new := by
  induction h with
  | refl => exact ⟨[],.refl l r⟩
  | tail hm hs ih =>
    have hc := growth_coherent hm hl
    have hmid : Log.Compatible _ r := fun s hr' => hr s (hs.results_subset hc s hr')
    obtain ⟨a,ha⟩ := ih hmid
    obtain ⟨b,hb⟩ := hs.kept hc hmid
    exact ⟨a ++ b,ha.trans hb⟩

end star

/-! What a compacted result is projected with. -/

lemma results_sublist {es : List Event} {ys : List Entry} (h : List.Forall₂ Entry.Reads es ys) :
    ((ys.filterMap Entry.ref?).map ResultRef.seq).Sublist (es.map Event.seq) := by
  induction h with
  | nil => exact .slnil
  | cons hx _ ih =>
    rename_i e y es ys _
    cases y with
    | neutral => exact ih.cons _
    | message m => exact ih.cons _
    | compaction c => exact ih.cons _
    | result seq d =>
      rw [List.map_cons,hx.seq.1]
      exact ih.cons_cons seq

/-- The results of a log have distinct sequence numbers. -/
lemma Log.Coherent.results_nodup {l : Log} (hl : l.Coherent) :
    (l.results.map ResultRef.seq).Nodup := by
  obtain ⟨xs,hxs,_⟩ := hl.reads
  have hord : (l.events.map Event.seq).Nodup :=
    List.pairwise_map.mpr (hl.ordered.imp (fun h => ne_of_lt h))
  rw [Log.results_eq hxs]
  exact hord.sublist (results_sublist hxs)

lemma Log.Coherent.compatible {l : Log} (hl : l.Coherent) {r : ResultRef} (hr : r ∈ l.results) :
    l.Compatible r := by
  intro s hs hseq
  rw [List.inj_on_of_nodup_map hl.results_nodup hs hr hseq]

lemma forall₂_mem_right {α β : Type} {R : α → β → Prop} {as : List α} {bs : List β}
    (h : List.Forall₂ R as bs) {b : β} (hb : b ∈ bs) : ∃ a ∈ as, R a b := by
  induction h with
  | nil => simp at hb
  | cons hab _ ih =>
    rcases List.mem_cons.mp hb with rfl | hb
    · exact ⟨_,by simp,hab⟩
    · obtain ⟨a,ha,hr⟩ := ih hb
      exact ⟨a,by simp [ha],hr⟩

lemma forall₂_imp_mem {α β : Type} {R S : α → β → Prop} {as : List α} {bs : List β}
    (h : List.Forall₂ R as bs) (hrs : ∀ a ∈ as, ∀ b, R a b → S a b) : List.Forall₂ S as bs := by
  induction h with
  | nil => exact .nil
  | cons hab _ ih =>
    exact .cons (hrs _ (by simp) _ hab) (ih (fun a ha => hrs a (by simp [ha])))

lemma Log.Coherent.results_pos {l : Log} (hl : l.Coherent) {r : ResultRef} (hr : r ∈ l.results) :
    0 < r.seq := by
  obtain ⟨xs,hxs,_⟩ := hl.reads
  rw [Log.results_eq hxs] at hr
  obtain ⟨e,he,hseq⟩ := List.mem_map.mp ((results_sublist hxs).subset (List.mem_map_of_mem hr))
  rw [← hseq]
  exact (hl.bounded e he).1

/-- The events around a result the log holds. -/
lemma Log.Coherent.around_result {l : Log} (hl : l.Coherent) {r : ResultRef} (hr : r ∈ l.results) :
    ∃ e pre post xpre d xpost, Around l.events e pre post xpre d xpost ∧ e.seq = r.seq ∧
      d.toolCallID = r.id := by
  obtain ⟨xs,hxs,_⟩ := hl.reads
  rw [Log.results_eq hxs,List.mem_filterMap] at hr
  obtain ⟨x,hx,href⟩ := hr
  cases x with
  | neutral => cases href
  | message m => cases href
  | compaction c => cases href
  | result seq d =>
    cases href
    obtain ⟨e,he,hread⟩ := forall₂_mem_right hxs hx
    obtain ⟨hseq,ht⟩ := hread.seq
    obtain ⟨pre,post,xpre,d',xpost,h⟩ := hl.around he ht
    obtain ⟨d'',hd'',hx''⟩ := hread.toolResult ht
    cases hx''
    rw [h.data] at hd''
    have hdd : d' = d := Except.ok.inj hd''
    exact ⟨e,pre,post,xpre,d',xpost,h,rfl,by rw [hdd]⟩

/-- A compacted result is projected with its compacted text. -/
theorem Log.Coherent.projectedContent_compacted {l : Log} (hl : l.Coherent) {r : ResultRef}
    (hr : r ∈ l.results) {t : String} (ht : l.compactedText r = some t) :
    l.projectedContent r.seq = some [.text t] := by
  obtain ⟨e,pre,post,xpre,d,xpost,h,hseq,hid⟩ := hl.around_result hr
  obtain ⟨_,w,_,hproj,_⟩ := hl.derives h.reads
  have hplace := h.place (ledgerOf (xpre ++ .result e.seq d :: xpost))
  have hholds := historyOf_holds (ledgerOf (xpre ++ .result e.seq d :: xpost)) xpre xpost e.seq d
  obtain ⟨m,hm,hb⟩ := hholds.derived
  rw [Log.compactedText_eq h.reads] at ht
  have hcontent : (ledgerOf (xpre ++ .result e.seq d :: xpost)).resultContent e.seq d =
    [.text t] := by
    rw [← hseq,← hid] at ht
    simp only [Ledger.resultContent,ht]
  rw [hcontent] at hb
  rw [← hseq]
  change (project (xpre ++ .result e.seq d :: xpost)).derived[_]? = _ at hm
  simp only [Log.projectedContent,hplace,hproj,bind,Option.bind,Except.toOption]
  simp only [hm,hb]

section warm
variable {l : Log} (hl : l.Coherent) (hv : l.proj.valid = true)
include hl hv

lemma Log.Coherent.results_warm : l.results = l.proj.results := by
  obtain ⟨xs,hxs,hproj⟩ := hl.reads
  obtain ⟨_,hh⟩ := hproj hv
  rw [Log.results_eq hxs,hh,historyOf_results]

lemma Log.Coherent.compactedText_warm (r : ResultRef) :
    l.compactedText r = l.proj.shortened r.seq r.id := by
  obtain ⟨xs,hxs,hproj⟩ := hl.reads
  obtain ⟨hledger,_⟩ := hproj hv
  rw [Log.compactedText_eq hxs,hledger]

end warm

/-! Result keys. -/

section numbered
variable {α : Type} {id : α → CallID}

lemma numbered_map_snd (seen : List CallID) (as : List α) :
    (numbered id seen as).map Prod.snd = as := by
  induction as generalizing seen with
  | nil => rfl
  | cons a as ih => simp [numbered,ih]

lemma mem_of_numbered {seen : List CallID} {as : List α} {k : ResultKey × α}
    (h : k ∈ numbered id seen as) : k.2 ∈ as := by
  rw [← @numbered_map_snd _ id seen as]
  exact List.mem_map_of_mem h

lemma numbered_id {seen : List CallID} {as : List α} {k : ResultKey × α}
    (h : k ∈ numbered id seen as) : k.1.id = id k.2 := by
  induction as generalizing seen with
  | nil => simp [numbered] at h
  | cons a as ih =>
    rcases List.mem_cons.mp h with rfl | h
    · rfl
    · exact ih h

lemma numbered_occurrence {seen : List CallID} {as : List α} {k : ResultKey × α}
    (h : k ∈ numbered id seen as) : seen.count k.1.id < k.1.occurrence := by
  induction as generalizing seen with
  | nil => simp [numbered] at h
  | cons a as ih =>
    rcases List.mem_cons.mp h with rfl | h
    · simp
    · have hlt := ih h
      have hle : seen.count k.1.id ≤ (id a :: seen).count k.1.id := List.count_le_count_cons
      omega

/-- No two results of a history have the same key. -/
lemma numbered_nodup (seen : List CallID) (as : List α) :
    ((numbered id seen as).map Prod.fst).Nodup := by
  induction as generalizing seen with
  | nil => exact List.nodup_nil
  | cons a as ih =>
    refine List.nodup_cons.mpr ⟨?_,ih _⟩
    intro hmem
    obtain ⟨k,hk,hkey⟩ := List.mem_map.mp hmem
    have hlt := numbered_occurrence hk
    rw [hkey] at hlt
    simp at hlt

end numbered

/-- A resolved key stands for the result that has it. -/
lemma resultSeqs_ok {l w : Log} {keys : List ResultKey} {seqs : List ℤ}
    (h : l.resultSeqs keys = .ok (seqs,w)) : l.warm = .ok w ∧ List.Forall₂ (fun key seq =>
      ∃ r, (key,r) ∈ numbered ResultRef.id [] w.proj.results ∧ r.seq = seq) keys seqs := by
  obtain ⟨w',hw,h⟩ := bind_ok h
  obtain ⟨out,ho,h⟩ := bind_ok h
  cases h
  refine ⟨hw,(mapM_ok ho).imp ?_⟩
  intro key seq hs
  cases hf : (numbered ResultRef.id [] w.proj.results).find? (fun k => k.1 = key) with
  | none =>
    rw [hf] at hs
    cases hs
  | some k =>
    rw [hf] at hs
    cases hs
    have hk : k.1 = key := by simpa using List.find?_some hf
    exact ⟨k.2,by rw [← hk]; exact List.mem_of_find?_eq_some hf,rfl⟩

/-- Different keys resolve to different sequences. -/
lemma resolved_nodup {results : List ResultRef} (hnd : (results.map ResultRef.seq).Nodup)
    {keys : List ResultKey} {seqs : List ℤ} (hk : keys.Nodup)
    (h : List.Forall₂ (fun key seq => ∃ r, (key,r) ∈ numbered ResultRef.id [] results ∧ r.seq = seq)
      keys seqs) : seqs.Nodup := by
  have hinj : ((numbered ResultRef.id [] results).map (fun k => k.2.seq)).Nodup := by
    have : (numbered ResultRef.id [] results).map (fun k =>
      k.2.seq) = results.map ResultRef.seq := by
      conv_rhs => rw [← @numbered_map_snd _ ResultRef.id [] results]
      rw [List.map_map]
      rfl
    rw [this]
    exact hnd
  induction h with
  | nil => exact List.nodup_nil
  | cons hr hrest ih =>
    obtain ⟨hnot,hk⟩ := List.nodup_cons.mp hk
    refine List.nodup_cons.mpr ⟨?_,ih hk⟩
    intro hmem
    obtain ⟨key',hkey',r',hr',hseq'⟩ := forall₂_mem_right hrest hmem
    obtain ⟨r,hr,hseq⟩ := hr
    have he := List.inj_on_of_nodup_map hinj hr hr' (by simp [hseq,hseq'])
    cases he
    exact hnot hkey'

end Manvi.Session
