import Manvi.Encoding.Course
import Manvi.Scan.Runner

/-! What a runner remembers of the gaps it has reported for a root. -/
namespace Manvi.Scan
open Manvi.Encoding

section tally
variable {known : List String} {maxProposals : ℤ} {ps : List Proposal} {t : Tally}

/-- The fingerprints of the proposals no board item holds. -/
def opens (ps : List Proposal) : List String :=
  (ps.filter (fun p => p.status ≠ .attached)).map Proposal.fingerprint

lemma opens_cons_attached {p : Proposal} (h : p.status = .attached) :
    opens (p :: ps) = opens ps := by
  simp [opens,h]

lemma opens_cons_open {p : Proposal} (h : p.status ≠ .attached) :
    opens (p :: ps) = p.fingerprint :: opens ps := by
  simp [opens,h]

/-- A known proposal keeps its fingerprint. -/
lemma fingerprint_known (p : Proposal) :
    (if p.fingerprint ∈ known then { p with status := .known } else p : Proposal).fingerprint =
    p.fingerprint := by
  split_ifs <;> rfl

/-- The fingerprints remembered are those of the first open proposals. -/
lemma next_foldl : (ps.foldl (Tally.take known maxProposals) t).next
    = ((opens ps).take (maxProposals-t.opened).toNat).reverse ++ t.next := by
  induction ps generalizing t with
  | nil => simp [opens]
  | cons p ps ih =>
    rw [List.foldl_cons,ih]
    by_cases hattached : p.status = .attached
    · rw [opens_cons_attached hattached]
      simp only [Tally.take,if_pos hattached]
    · rw [opens_cons_open hattached]
      by_cases hfull : maxProposals ≤ t.opened
      · have hnone : (maxProposals-t.opened).toNat = 0 := by omega
        simp only [Tally.take,if_neg hattached,if_pos hfull,hnone,List.take_zero]
      · have hmore : (maxProposals-t.opened).toNat =
          (maxProposals-(t.opened+1 : ℕ)).toNat+1 := by omega
        simp only [Tally.take,if_neg hattached,if_neg hfull,hmore,List.take_succ_cons,
          List.reverse_cons,
          List.append_assoc,List.singleton_append,fingerprint_known]

lemma next_tally : (tally known maxProposals ps).next =
    ((opens ps).take maxProposals.toNat).reverse := by
  rw [tally,next_foldl]
  simp

/-- What is kept is remembered unless it is attached, and is known where it was remembered
before. -/
structure Told (known : List String) (t : Tally) : Prop where
  remembered : ∀ p ∈ t.kept, p.status ≠ .attached → p.fingerprint ∈ t.next
  fresh : ∀ p ∈ t.kept, p.status = .new → p.fingerprint ∉ known

lemma Told.take (h : Told known t) (maxProposals : ℤ) (p : Proposal) :
    Told known (t.take known maxProposals p) := by
  unfold Tally.take
  by_cases hattached : p.status = .attached
  · rw [if_pos hattached]
    refine ⟨fun q hq hopen => ?_,fun q hq hnew => ?_⟩
    · obtain hq | rfl := List.mem_append.mp hq |>.imp_right List.mem_singleton.mp
      · exact h.remembered q hq hopen
      · exact (hopen hattached).elim
    · obtain hq | rfl := List.mem_append.mp hq |>.imp_right List.mem_singleton.mp
      · exact h.fresh q hq hnew
      · rw [hattached] at hnew
        cases hnew
  · rw [if_neg hattached]
    by_cases hfull : maxProposals ≤ t.opened
    · simp only [if_pos hfull]
      exact ⟨h.remembered,h.fresh⟩
    · simp only [if_neg hfull]
      refine ⟨fun q hq hopen => ?_,fun q hq hnew => ?_⟩
      · obtain hq | rfl := List.mem_append.mp hq |>.imp_right List.mem_singleton.mp
        · exact List.mem_cons_of_mem _ (h.remembered q hq hopen)
        · exact List.mem_cons_self
      · obtain hq | rfl := List.mem_append.mp hq |>.imp_right List.mem_singleton.mp
        · exact h.fresh q hq hnew
        · split_ifs at hnew ⊢ with hknown
          exact hknown

lemma told_foldl (h : Told known t) : Told known (ps.foldl (Tally.take known maxProposals) t) := by
  induction ps generalizing t with
  | nil => exact h
  | cons p ps ih => exact ih (h.take maxProposals p)

lemma told_tally : Told known (tally known maxProposals ps) :=
  told_foldl ⟨fun _ h => (by cases h),fun _ h => (by cases h)⟩

end tally

section memory
variable {r : Runner} {i : ℕ} {root fp : String} {o : Outcome}

/-- A scan that is not through has reported nothing. -/
def Silent (r : Runner) : Prop := ∀ (i : ℕ) (job : Job), r.scans[i]? = some job →
    job.ended = false → job.view.proposals = []

lemma Silent.scan (h : Silent r) (hended : (r.scan i).ended = false) :
    (r.scan i).view.proposals = [] :=
  h i _ (Runner.scan_of_not_ended hended) hended

lemma Silent.set {r' : Runner} (h : Silent r) {new : Job} (hscans : r'.scans = r.scans.set i new)
    (hnew : new.ended = false → new.view.proposals = []) : Silent r' := by
  intro k job hk
  rw [hscans] at hk
  obtain ⟨_,_,rfl⟩ | ⟨_,hk⟩ := getElem?_set hk
  · exact hnew
  · exact h k job hk

lemma Silent.step (h : Silent r) (hslots : Slots r) (a : Act) : Silent (step r a) := by
  cases a with
  | start id root since maxProposals =>
    obtain ⟨e,he⟩ | ⟨n,hn⟩ := start_cases r id root since maxProposals
    · simpa only [Scan.step,he] using h
    · simp only [Scan.step,hn]
      obtain ⟨e,he⟩ | ⟨_,_,he⟩ | ⟨_,_,he⟩ := claim_cases r id root since n
      · simpa only [he] using h
      · simpa only [he] using h
      · rw [he]
        intro k job hk
        by_cases hlt : k < r.scans.length
        · rw [List.getElem?_append_left hlt] at hk
          exact h k job hk
        · rw [List.getElem?_append_right (Nat.le_of_not_lt hlt)] at hk
          have hmem := List.mem_of_getElem? hk
          rw [List.mem_singleton.mp hmem]
          exact fun _ => rfl
  | get id => exact h
  | cancel id =>
    obtain he | ⟨k,job,hk,_,he⟩ := cancel_cases hslots id
    · simpa only [Scan.step,he] using h
    · simp only [Scan.step,he]
      have hsilent := h k job hk
      simp only [Runner.stop]
      split_ifs
      · exact h.set rfl (by rw [Runner.scan_eq hk]; exact hsilent)
      · exact h.set rfl (by rw [Runner.scan_eq hk]; exact hsilent)
  | close => exact h
  | finish k o =>
    cases hended : (r.scan k).ended with
    | true =>
      simp only [Scan.step,Runner.finish,hended,if_true]
      exact h
    | false => exact h.set (finish_parts hended o).1 (fun he => (by cases he))

lemma silent_foldl (h : Silent r) (hslots : Slots r) (acts : List Act) :
    Silent (acts.foldl step r) := by
  induction acts generalizing r with
  | nil => exact h
  | cons a acts ih => exact ih (h.step hslots a) (hslots.step a)

lemma silent_after (acts : List Act) : Silent (after acts) :=
    silent_foldl (fun _ _ h => (by cases h)) slots_new acts

lemma get_foldl_erase (m : Table String (List String)) (ks : List String) :
    (ks.foldl Table.erase m).get root = none ∨ (ks.foldl Table.erase m).get root = m.get root := by
  induction ks generalizing m with
  | nil => exact .inr rfl
  | cons k ks ih =>
    obtain h | h := ih (m.erase k)
    · exact .inl h
    · rw [Table.get_erase] at h
      split_ifs at h
      · exact .inl h
      · exact .inr h

lemma knows_remember (set : List String) : (r.remember root set).knows root = set := by
  simp [Runner.knows,Runner.remember]

/-- A root that is still remembered after another is remembered as before. -/
lemma knows_remember_of_ne {root' : String} (hne : root ≠ root') (set : List String)
    (hkept : ((r.remember root' set).known.get root).isSome = true) :
    (r.remember root' set).knows root = r.knows root := by
  unfold Runner.knows
  have hget : (r.remember root' set).known.get root = none
      ∨ (r.remember root' set).known.get root = r.known.get root := by
    simp only [Runner.remember,Table.get_set_of_ne _ hne]
    exact get_foldl_erase _ _
  obtain h | h := hget
  · rw [h] at hkept
    cases hkept
  · rw [h]

/-- Whether the end of a goroutine is that of a scan of a root. -/
def Runner.ends (r : Runner) (i : ℕ) (root : String) : Prop :=
  (r.scan i).ended = false ∧ (r.scan i).view.repoRoot = root

instance (r : Runner) (i : ℕ) (root : String) : Decidable (r.ends i root) :=
  inferInstanceAs (Decidable (_ ∧ _))

/-- What is remembered of a root after the end of a scan. -/
lemma knows_finish (hended : (r.scan i).ended = false) (o : Outcome)
    (hkept : ((r.finish i o).known.get root).isSome = true) : (r.finish i o).knows root =
      if (r.scan i).view.repoRoot = root ∧ (o.ending (r.scan i).view.state).reports = true
        then o.remembers (r.knows root) (r.scan i).view else r.knows root := by
  have hmem : ∀ r' : Runner, ((r'.release i).retire (r.scan i).view.scanID).known = r'.known := by
    intro r'
    simp only [Runner.retire,Runner.release]
    split_ifs <;> rfl
  unfold Runner.finish at hkept ⊢
  simp only [hended,Bool.false_eq_true,if_false] at hkept ⊢
  have hview : (o.view (r.knows (r.scan i).view.repoRoot) (r.scan i).view).state = o.ending
    (r.scan i).view.state := rfl
  have hroot : (o.view (r.knows (r.scan i).view.repoRoot) (r.scan i).view).repoRoot =
    (r.scan i).view.repoRoot := rfl
  have hid : (o.view (r.knows (r.scan i).view.repoRoot) (r.scan i).view).scanID =
    (r.scan i).view.scanID := rfl
  rw [hview,hroot,hid] at hkept ⊢
  simp only [Runner.knows] at hkept ⊢
  rw [hmem] at hkept ⊢
  by_cases hreports : (o.ending (r.scan i).view.state).reports = true
  · rw [if_pos hreports] at hkept ⊢
    by_cases hsame : (r.scan i).view.repoRoot = root
    · subst hsame
      rw [if_pos ⟨rfl,hreports⟩]
      exact knows_remember _
    · rw [if_neg (fun h => hsame h.1)]
      exact knows_remember_of_ne (Ne.symm hsame) _ hkept
  · rw [if_neg hreports,if_neg (fun h => hreports h.2)]

/-- Only the end of a scan changes what is remembered. -/
lemma known_step (hslots : Slots r) {a : Act} (ha : ∀ i o, a ≠ .finish i o) :
    (step r a).known = r.known := by
  cases a with
  | start id root since maxProposals =>
    obtain ⟨e,he⟩ | ⟨n,hn⟩ := start_cases r id root since maxProposals
    · simp only [step,he]
    · simp only [step,hn]
      obtain ⟨e,he⟩ | ⟨_,_,he⟩ | ⟨_,_,he⟩ := claim_cases r id root since n
      all_goals rw [he]
  | get id => rfl
  | cancel id =>
    obtain he | ⟨k,job,hk,_,he⟩ := cancel_cases hslots id
    · simp only [step,he]
    · simp only [step,he,Runner.stop]
      split_ifs <;> rfl
  | close => rfl
  | finish i o => exact (ha i o rfl).elim

/-- A gap is found again and no board item holds it. -/
def Outcome.finds (o : Outcome) (fp : String) : Prop :=
  (∃ f ∈ o.findings, f.fingerprint = fp) ∧ ∀ index complete, o.board = .ok (index,complete) →
  ∀ e ∈ index, e.1 ≠ fp

/-- A scan that comes to its end undisturbed puts each remembered gap it finds open within the bound
on proposals. -/
def Outcome.keeps (o : Outcome) (known : List String) (v : View) : Prop :=
  v.state ≠ .cancelled → o.ctxErr = none →
    ∀ fp ∈ opens o.proposals, fp ∈ known → fp ∈ (opens o.proposals).take v.maxProposals.toNat

/-- Where the board could be read, a gap that is found is open. -/
lemma mem_opens_of_finds (h : o.finds fp) {ps : List Proposal} {complete : Bool}
    (hdedupe : o.dedupe = .ok (ps,complete)) :
    fp ∈ opens ps := by
  obtain ⟨⟨f,hf,rfl⟩,hboard⟩ := h
  unfold Outcome.dedupe at hdedupe
  rw [if_neg (List.ne_nil_of_mem hf)] at hdedupe
  split_ifs at hdedupe
  cases hb : o.board with
  | error e =>
    rw [hb] at hdedupe
    cases hdedupe
  | ok found =>
    obtain ⟨index,complete'⟩ := found
    rw [hb] at hdedupe
    obtain ⟨rfl,rfl⟩ := Prod.mk.inj (Except.ok.inj hdedupe)
    have hnone : index.find? (fun e => e.1 = f.fingerprint) = none := by
      rw [List.find?_eq_none]
      intro e he
      simpa using hboard index complete' hb e he
    refine List.mem_map.mpr ⟨propose index f,List.mem_filter.mpr ⟨List.mem_map_of_mem hf,?_⟩,?_⟩
    · simp [propose,hnone]
    · simp [propose,hnone]

/-- A scan that is done was not disturbed, and read the board. -/
lemma done_cases {s : ScanState} (h : o.ending s = .done) :
    s ≠ .cancelled ∧ o.ctxErr = none ∧ ∃ complete, o.dedupe = .ok (o.proposals,complete) := by
  unfold Outcome.ending at h
  split_ifs at h with hs
  refine ⟨hs,?_⟩
  cases hctx : o.ctxErr with
  | some e =>
    rw [hctx] at h
    cases e <;> cases h
  | none =>
    rw [hctx] at h
    refine ⟨rfl,?_⟩
    cases hd : o.dedupe with
    | error e =>
      rw [hd] at h
      cases h
    | ok found => exact ⟨found.2,by simp [Outcome.proposals,hd]⟩

lemma mem_remembers {known : List String} {v : View} (hkeeps : o.keeps known v)
    (hfinds : o.finds fp) (hknown : fp ∈ known) :
    fp ∈ o.remembers known v := by
  unfold Outcome.remembers
  simp only []
  split_ifs with hdone
  · obtain ⟨hstate,hctx,complete,hdedupe⟩ := done_cases hdone
    rw [next_tally,List.mem_reverse]
    exact hkeeps hstate hctx fp (mem_opens_of_finds hfinds hdedupe) hknown
  · exact List.mem_append_right _ hknown

/-- One act keeps a gap that is remembered. -/
lemma knows_step (hslots : Slots r) (a : Act) (hkept : ((step r a).known.get root).isSome = true)
    (hfinish : ∀ i o, a = .finish i o → r.ends i root → o.keeps (r.knows root) (r.scan i).view ∧
      o.finds fp)
    (h : fp ∈ r.knows root) : fp ∈ (step r a).knows root := by
  by_cases ha : ∃ i o, a = .finish i o
  · obtain ⟨i,o,rfl⟩ := ha
    cases hended : (r.scan i).ended with
    | true =>
      simp only [step,Runner.finish,hended,if_true]
      exact h
    | false =>
      simp only [step] at hkept ⊢
      rw [knows_finish hended o hkept]
      split_ifs with hreports
      · obtain ⟨hkeeps,hfinds⟩ := hfinish i o rfl ⟨hended,hreports.1⟩
        exact mem_remembers hkeeps hfinds h
      · exact h
  · have hsame := known_step hslots (a := a) (fun i o he => ha ⟨i,o,he⟩)
    rw [Runner.knows,hsame]
    exact h

lemma scan_finish (hended : (r.scan i).ended = false) (o : Outcome) :
    ((r.finish i o).scan i).view = o.view (r.knows (r.scan i).view.repoRoot) (r.scan i).view := by
  have hlt := (List.getElem?_eq_some_iff.mp (Runner.scan_of_not_ended hended)).1
  rw [Runner.scan_eq (by rw [(finish_parts hended o).1,List.getElem?_set_self hlt])]

/-- What a scan reports was found, and is told apart from what was remembered. -/
lemma reported_cases (hsilent : Silent r) (hends : r.ends i root) {p : Proposal}
    (hp : p ∈ ((r.finish i o).scan i).view.proposals) :
    (o.ending (r.scan i).view.state).reports = true ∧
    p ∈ (tally (r.knows root) (r.scan i).view.maxProposals o.proposals).kept := by
  obtain ⟨hended,rfl⟩ := hends
  rw [scan_finish hended o] at hp
  simp only [Outcome.view] at hp
  split_ifs at hp with hreports
  · exact ⟨hreports,hp⟩
  · simp only [hsilent.scan hended] at hp
    cases hp

/-- What a scan reports open is remembered from then on. -/
lemma knows_reported (hsilent : Silent r) (hends : r.ends i root)
    (hkept : ((r.finish i o).known.get root).isSome = true)
    {p : Proposal} (hp : p ∈ ((r.finish i o).scan i).view.proposals)
    (hopen : p.status ≠ .attached) :
    p.fingerprint ∈ (r.finish i o).knows root := by
  obtain ⟨hreports,hmem⟩ := reported_cases hsilent hends hp
  have hnext := told_tally.remembered p hmem hopen
  rw [knows_finish hends.1 o hkept,if_pos ⟨hends.2,hreports⟩,Outcome.remembers]
  split_ifs
  · exact hnext
  · exact List.mem_append_left _ hnext

end memory

section runs
variable {acts : List Act} {root fp : String} {n : ℕ}

/-- A runner in the course of some acts. -/
def during (acts : List Act) (n : ℕ) : Runner := course step Runner.new acts n

lemma during_succ {a : Act} (h : acts[n]? = some a) : during acts (n+1) = step (during acts n) a :=
    course_succ h

lemma during_past (h : acts[n]? = none) : during acts (n+1) = during acts n := course_past h

/-- A gap that a scan of a root has reported open, and that each later one finds open, is not
reported as new again while the root is remembered. -/
def NewOnce (acts : List Act) (root : String) : Prop :=
  ∀ (m n i j : ℕ) (o o' : Outcome) (p : Proposal), m < n → acts[m]? = some (.finish i o) →
  acts[n]? = some (.finish j o') →
    (during acts m).ends i root → (during acts n).ends j root →
    p ∈ ((during acts (m+1)).scan i).view.proposals → p.status ≠ .attached →
    (∀ l, m < l → l ≤ n → ((during acts l).known.get root).isSome = true) →
    (∀ l k out, m < l → l ≤ n → acts[l]? = some (.finish k out) → (during acts l).ends k root →
      out.finds p.fingerprint) →
    ∀ q ∈ ((during acts (n+1)).scan j).view.proposals, q.fingerprint = p.fingerprint →
    q.status ≠ .new

/-- What is remembered stays so from one act to the next. -/
lemma knows_during {m : ℕ} (hknown : fp ∈ (during acts (m+1)).knows root) (hlt : m < n)
    (hstays : ∀ l, m < l → l ≤ n → ((during acts l).known.get root).isSome = true)
    (hfinds : ∀ l k out, m < l → l ≤ n → acts[l]? = some (.finish k out) →
      (during acts l).ends k root → out.finds fp)
    (hkeeps : ∀ l k out, acts[l]? = some (.finish k out) → (during acts l).ends k root →
      out.keeps ((during acts l).knows root) ((during acts l).scan k).view) :
    fp ∈ (during acts n).knows root := by
  induction n with
  | zero => omega
  | succ n ih =>
    by_cases hn : n = m
    · rw [hn]
      exact hknown
    · have hbefore := ih (by omega) (fun l hl hle => hstays l hl (by omega)) (fun l k out hl hle =>
        hfinds l k out hl (by omega))
      cases hact : acts[n]? with
      | none =>
        rw [during_past hact]
        exact hbefore
      | some a =>
        have hkept := hstays (n+1) hlt le_rfl
        rw [during_succ hact] at hkept ⊢
        refine knows_step (slots_after _) a hkept (fun k out ha hends => ?_) hbefore
        rw [ha] at hact
        exact ⟨hkeeps n k out hact hends,hfinds n k out (by omega) (by omega) hact hends⟩

/-- Where each scan that comes to its end undisturbed has room for the remembered gaps it finds
open, a gap is new once. -/
theorem newOnce_of_keeps (acts : List Act) (root : String)
    (hkeeps : ∀ l k out, acts[l]? = some (.finish k out) → (during acts l).ends k root →
      out.keeps ((during acts l).knows root)
      ((during acts l).scan k).view) : NewOnce acts root := by
  intro m n i j o o' p hlt hfirst hlast hends hends' hp hopen hstays hfinds q hq hsame hnew
  have hkept := hstays (m+1) (by omega) (by omega)
  rw [during_succ hfirst] at hp hkept
  have hknown := knows_reported (silent_after _) hends hkept hp hopen
  have hthen : p.fingerprint ∈ (during acts n).knows root := by
    refine knows_during ?_ hlt hstays hfinds hkeeps
    rw [during_succ hfirst]
    exact hknown
  rw [during_succ hlast] at hq
  have hmem := (reported_cases (silent_after _) hends' hq).2
  exact told_tally.fresh q hmem hnew (hsame ▸ hthen)

/-- A scan with two proposals, one with room for one, and one with room for both again. -/
def cutShort : List Act :=
  let gap : Finding := ⟨"changed_untested","pkg/a.go:Run"⟩
  let other : Finding := ⟨"verification_gaps","pkg/b.go:Stop"⟩
  [.start "1" "/repo" "main" 25,.finish 0 ⟨false,none,[],[gap],.ok ([],true)⟩,
    .start "2" "/repo" "main" 1,.finish 1 ⟨false,none,[],[other,gap],.ok ([],true)⟩,
    .start "3" "/repo" "main" 25,.finish 2 ⟨false,none,[],[gap],.ok ([],true)⟩]

lemma cutShort_finds (l k : ℕ) (out : Outcome) (h : cutShort[l]? = some (.finish k out)) :
    out.finds (scanFingerprint "changed_untested" "pkg/a.go:Run") := by
  have hmem := List.mem_of_getElem? h
  simp only [cutShort,List.mem_cons,Act.finish.injEq,reduceCtorEq,false_or,List.not_mem_nil,
    or_false] at hmem
  obtain ⟨_,rfl⟩ | ⟨_,rfl⟩ | ⟨_,rfl⟩ := hmem
  all_goals
    refine ⟨⟨⟨"changed_untested","pkg/a.go:Run"⟩,by simp,rfl⟩,?_⟩
    intro index complete hboard e he
    cases hboard
    cases he

/-- A gap that a smaller scan cut off is forgotten, and then new again. -/
theorem not_newOnce_cutShort : ¬ NewOnce cutShort "/repo" := by
  intro h
  have hgap : ⟨scanFingerprint "changed_untested" "pkg/a.go:Run","changed_untested",.new,
    ""⟩ ∈ ((during cutShort 2).scan 0).view.proposals := by
    decide +kernel
  have hagain : ⟨scanFingerprint "changed_untested" "pkg/a.go:Run","changed_untested",.new,
    ""⟩ ∈ ((during cutShort 6).scan 2).view.proposals := by
    decide +kernel
  refine h 1 5 0 2 _ _ _ (by decide) rfl rfl (by decide) (by decide) hgap (fun he =>
    (by cases he)) ?_ ?_ _ hagain rfl rfl
  · intro l hl hle
    interval_cases l <;> decide
  · intro l k out _ _ hact _
    exact cutShort_finds l k out hact

/-- Two scans with room for what they find. -/
def roomy : List Act :=
  let gap : Finding := ⟨"changed_untested","pkg/a.go:Run"⟩
  [.start "1" "/repo" "main" 25,.finish 0 ⟨false,none,[],[gap],.ok ([],true)⟩,
    .start "2" "/repo" "main" 25,.finish 1 ⟨false,none,[],[gap],.ok ([],true)⟩]

theorem newOnce_roomy : NewOnce roomy "/repo" ∧
    ((during roomy 4).scan 1).view.proposals.map Proposal.status = [.known] := by
  refine ⟨newOnce_of_keeps roomy "/repo" ?_,by decide +kernel⟩
  intro l k out hact hends _ _ fp hfp _
  have hlt : l < 4 := (List.getElem?_eq_some_iff.mp hact).1
  interval_cases l
  · cases hact
  · cases hact
    exact hfp
  · cases hact
  · cases hact
    exact hfp

end runs
end Manvi.Scan
