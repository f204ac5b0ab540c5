import Manvi.DevCouncil.BatchReader

/-! Searching an object in windows finds what is in it, and nothing else. -/
namespace Manvi.DevCouncil
open Manvi.Encoding

/-- A text gives a reason to refuse: it holds a value of that reason, or a credential of the
process. -/
def Leak (values : List WindowNeedle) (secrets : List Bytes) (reason : String) (text : Bytes) :
    Prop :=
  (∃ n ∈ values, n.reason = reason ∧ n.bytes <:+: text) ∨
  (reason = credentialReason ∧ ∃ v ∈ secrets, v <:+: text)

/-- The known-secret predicate holds of a text exactly when the text contains one of the secrets. -/
def KnownBy (secrets : List Bytes) : Option (Bytes → Bool) → Prop
  | none => secrets = []
  | some known => ∀ text, known text = true ↔ ∃ v ∈ secrets, v <:+: text

/-- The values that a scan looks for fit in a window with its overlap. -/
structure ScanConfig.Fits (cfg : ScanConfig) (secrets : List Bytes) : Prop where
  known : KnownBy secrets cfg.known
  values : ∀ n ∈ cfg.values, n.bytes ≠ [] ∧ n.bytes.length ≤ cfg.overlap+1
  secrets : ∀ v ∈ secrets, v ≠ [] ∧ v.length ≤ cfg.overlap+1

section
variable {cfg : ScanConfig} {secrets : List Bytes} {reason : String} {text seen : Bytes}

lemma Leak.mono {values : List WindowNeedle} {whole : Bytes} (h : Leak values secrets reason text)
    (hin : text <:+: whole) :
    Leak values secrets reason whole := by
  cases h with
  | inl h =>
    obtain ⟨n,hn,hreason,hfound⟩ := h
    exact .inl ⟨n,hn,hreason,hfound.trans hin⟩
  | inr h =>
    obtain ⟨hreason,v,hv,hfound⟩ := h
    exact .inr ⟨hreason,v,hv,hfound.trans hin⟩

/-- A value in a text is in the part that was searched before or reaches into the window. -/
lemma infix_window {v a b buf : Bytes} {overlap : ℕ} (hlen : v.length ≤ overlap+1)
    (h : v <:+: a ++ b)
    (hbuf : buf <:+ a ++ b) (hreach : min (a.length+b.length) (b.length+overlap) ≤ buf.length) :
    v <:+: a ∨ v <:+: buf := by
  obtain ⟨x,y,hxy⟩ := h
  have hsize := congrArg List.length hxy
  simp only [List.length_append] at hsize
  by_cases hle : x.length+v.length ≤ a.length
  · left
    have hpre : x ++ v <+: a ++ b := ⟨y,hxy⟩
    have hin : x ++ v <+: a :=
      List.prefix_of_prefix_length_le hpre (List.prefix_append a b)
      (by rw [List.length_append]; exact hle)
    exact (List.suffix_append x v).isInfix.trans hin.isInfix
  · right
    have hsuf : v ++ y <:+ a ++ b := ⟨x,by rw [← hxy,List.append_assoc]⟩
    have hin : v ++ y <:+ buf := by
      refine List.suffix_of_suffix_length_le hsuf hbuf ?_
      rw [List.length_append]
      omega
    exact (List.prefix_append v y).isInfix.trans hin.isInfix

/-- A leak of a text was there before the fresh bytes, or shows in the window. -/
lemma Leak.window (hfits : cfg.Fits secrets) {a b buf : Bytes}
    (h : Leak cfg.values secrets reason (a ++ b))
    (hbuf : buf <:+ a ++ b) (hreach : min (a.length+b.length) (b.length+cfg.overlap) ≤ buf.length) :
    Leak cfg.values secrets reason a ∨ Leak cfg.values secrets reason buf := by
  cases h with
  | inl h =>
    obtain ⟨n,hn,hreason,hfound⟩ := h
    cases infix_window (hfits.values n hn).2 hfound hbuf hreach with
    | inl h => exact .inl (.inl ⟨n,hn,hreason,h⟩)
    | inr h => exact .inr (.inl ⟨n,hn,hreason,h⟩)
  | inr h =>
    obtain ⟨hreason,v,hv,hfound⟩ := h
    cases infix_window (hfits.secrets v hv).2 hfound hbuf hreach with
    | inl h => exact .inl (.inr ⟨hreason,v,hv,h⟩)
    | inr h => exact .inr (.inr ⟨hreason,v,hv,h⟩)

/-- An empty text holds no value. -/
lemma not_leak_nil (hfits : cfg.Fits secrets) : ¬ Leak cfg.values secrets reason [] := by
  intro h
  cases h with
  | inl h =>
    obtain ⟨n,hn,_,hfound⟩ := h
    exact (hfits.values n hn).1 (List.infix_nil.mp hfound)
  | inr h =>
    obtain ⟨_,v,hv,hfound⟩ := h
    exact (hfits.secrets v hv).1 (List.infix_nil.mp hfound)

/-- A search reports exactly the leaks of its window. -/
lemma mem_scan_iff (hfits : cfg.Fits secrets) (s : WindowSink) (hit : Hit) :
    hit ∈ (s.scan cfg).2 ↔ hit.1 = s.label ∧ Leak cfg.values secrets hit.2 s.buf := by
  obtain ⟨path,reason⟩ := hit
  have hknown : cfg.known.any (fun known => known s.buf) = true ↔ ∃ v ∈ secrets, v <:+: s.buf := by
    have hk := hfits.known
    cases hc : cfg.known with
    | none =>
      rw [hc] at hk
      simp [show secrets = [] from hk]
    | some known =>
      rw [hc] at hk
      simpa using hk s.buf
  simp only [WindowSink.scan,List.mem_append,List.mem_map,List.mem_filter,contains_iff]
  refine ⟨?_,?_⟩
  · rintro (⟨n,⟨hn,hfound⟩,heq⟩ | h)
    · cases heq
      exact ⟨rfl,.inl ⟨n,hn,rfl,hfound⟩⟩
    · split_ifs at h with hc
      · rw [List.mem_singleton] at h
        cases h
        exact ⟨rfl,.inr ⟨rfl,hknown.mp hc⟩⟩
      · cases h
  · rintro ⟨hlabel,hleak⟩
    have hlabel : path = s.label := hlabel
    subst hlabel
    cases hleak with
    | inl h =>
      obtain ⟨n,hn,hreason,hfound⟩ := h
      exact .inl ⟨n,⟨hn,hfound⟩,by rw [hreason]⟩
    | inr h =>
      obtain ⟨hreason,hsecret⟩ := h
      have hreason : reason = credentialReason := hreason
      rw [if_pos (hknown.mpr hsecret),hreason]
      exact .inr (List.mem_singleton_self _)

/-- What a sink has of an object, after some of its bytes: the last of them, and hits for all but
the fresh ones. -/
structure WindowSink.Sees (cfg : ScanConfig) (secrets : List Bytes) (s : WindowSink) (seen : Bytes)
    (hits : List Hit) : Prop where
  buf : s.buf <:+ seen
  fresh : s.fresh ≤ s.buf.length
  reach : min seen.length (s.fresh+cfg.overlap) ≤ s.buf.length
  reported : ∀ reason, Leak cfg.values secrets reason (seen.take (seen.length-s.fresh)) →
    (s.label,reason) ∈ hits

lemma sees_nil (hfits : cfg.Fits secrets) (label : String) (hits : List Hit) :
    WindowSink.Sees cfg secrets ⟨label,[],0⟩ [] hits := by
  refine ⟨List.suffix_rfl,le_refl _,by simp,?_⟩
  intro reason hleak
  exact absurd hleak (not_leak_nil hfits)

/-- The bytes of a text are those before the fresh ones and the fresh ones. -/
lemma split_fresh {s : WindowSink} {hits : List Hit} (h : s.Sees cfg secrets seen hits) :
    ∃ a b, seen = a ++ b ∧ a = seen.take (seen.length-s.fresh) ∧ b.length = s.fresh := by
  have hle := h.buf.length_le
  have hfresh := h.fresh
  refine ⟨_,seen.drop (seen.length-s.fresh),(List.take_append_drop _ _).symm,rfl,?_⟩
  rw [List.length_drop]
  omega

/-- After a search every leak of what was seen is reported. -/
lemma WindowSink.Sees.scan (hfits : cfg.Fits secrets) {s : WindowSink} {hits : List Hit}
    (h : s.Sees cfg secrets seen hits) :
    (∀ reason, Leak cfg.values secrets reason seen → (s.label,reason) ∈ hits ++ (s.scan cfg).2) ∧
    (s.scan cfg).1.Sees cfg secrets seen (hits ++ (s.scan cfg).2) := by
  have hall : ∀ reason, Leak cfg.values secrets reason seen →
    (s.label,reason) ∈ hits ++ (s.scan cfg).2 := by
    intro reason hleak
    obtain ⟨a,b,hseen,ha,hb⟩ := split_fresh h
    have hreach := h.reach
    have hbuf := h.buf
    have hlen : a.length+b.length = seen.length := by rw [hseen,List.length_append]
    rw [hseen] at hleak hbuf
    rw [List.mem_append]
    cases Leak.window hfits hleak hbuf (by rw [hb]; omega) with
    | inl hold =>
      rw [ha] at hold
      exact .inl (h.reported reason hold)
    | inr hnew => exact .inr ((mem_scan_iff hfits s _).mpr ⟨rfl,hnew⟩)
  refine ⟨hall,?_,?_,?_,?_⟩
  · exact (List.drop_suffix _ _).trans h.buf
  · exact Nat.zero_le _
  · have hreach := h.reach
    change min seen.length (0+cfg.overlap) ≤
      (s.buf.drop (s.buf.length-min s.buf.length cfg.overlap)).length
    rw [List.length_drop]
    omega
  · intro reason hleak
    refine hall reason (hleak.mono ?_)
    exact (List.take_prefix _ _).isInfix

/-- More hits keep what was seen. -/
lemma WindowSink.Sees.more {s : WindowSink} {hits : List Hit} (h : s.Sees cfg secrets seen hits)
    (more : List Hit) :
    s.Sees cfg secrets seen (hits ++ more) :=
  ⟨h.buf,h.fresh,h.reach,fun reason hleak => List.mem_append_left _ (h.reported reason hleak)⟩

/-- Bytes that are only gathered. -/
lemma WindowSink.Sees.gather {s : WindowSink} {hits : List Hit} (h : s.Sees cfg secrets seen hits)
    (p : Bytes) :
    (s.gather p).Sees cfg secrets (seen ++ p) hits := by
  have hle := h.buf.length_le
  have hfresh := h.fresh
  have hreach := h.reach
  refine ⟨?_,?_,?_,?_⟩
  · obtain ⟨x,hx⟩ := h.buf
    refine ⟨x,?_⟩
    rw [← hx,List.append_assoc]
    rfl
  · change s.fresh+p.length ≤ (s.buf ++ p).length
    rw [List.length_append]
    omega
  · change min (seen ++ p).length (s.fresh+p.length+cfg.overlap) ≤ (s.buf ++ p).length
    simp only [List.length_append]
    omega
  · intro reason hleak
    apply h.reported reason
    have hcut : (seen ++ p).length-(s.fresh+p.length) = seen.length-s.fresh := by
      rw [List.length_append]
      omega
    change Leak cfg.values secrets reason ((seen ++
      p).take ((seen ++ p).length-(s.fresh+p.length))) at hleak
    rwa [hcut,List.take_append_of_le_length (by omega)] at hleak

lemma WindowSink.Sees.write (hfits : cfg.Fits secrets) {s : WindowSink} {hits : List Hit}
    (h : s.Sees cfg secrets seen hits)
    (p : Bytes) : (s.write cfg p).1.Sees cfg secrets (seen ++ p) (hits ++ (s.write cfg p).2) := by
  unfold WindowSink.write
  have hgather := h.gather p
  split_ifs
  · exact (hgather.scan hfits).2
  · exact hgather.more []

/-- A sink keeps its label. -/
lemma label_write (s : WindowSink) (p : Bytes) : (s.write cfg p).1.label = s.label := by
  unfold WindowSink.write
  split_ifs
  · rfl
  · rfl

/-- What a write reports is in the bytes that were seen. -/
lemma leak_of_mem_write (hfits : cfg.Fits secrets) {s : WindowSink} {hits : List Hit}
    (h : s.Sees cfg secrets seen hits)
    {p : Bytes} {hit : Hit} (hmem : hit ∈ (s.write cfg p).2) :
    hit.1 = s.label ∧ Leak cfg.values secrets hit.2 (seen ++ p) := by
  unfold WindowSink.write at hmem
  split_ifs at hmem
  · rw [mem_scan_iff hfits] at hmem
    exact ⟨hmem.1,hmem.2.mono (h.gather p).buf.isInfix⟩
  · cases hmem

/-- Closing reports what is left to report. -/
lemma WindowSink.Sees.close (hfits : cfg.Fits secrets) {s : WindowSink} {hits : List Hit}
    (h : s.Sees cfg secrets seen hits)
    (hleak : Leak cfg.values secrets reason seen) : (s.label,reason) ∈ hits ++ s.close cfg := by
  unfold WindowSink.close
  split_ifs with hfresh
  · exact (h.scan hfits).1 reason hleak
  · rw [List.append_nil]
    apply h.reported reason
    rwa [show s.fresh = 0 by omega,Nat.sub_zero,List.take_length]

lemma leak_of_mem_close (hfits : cfg.Fits secrets) {s : WindowSink} {hits : List Hit}
    (h : s.Sees cfg secrets seen hits)
    {hit : Hit} (hmem : hit ∈ s.close cfg) :
    hit.1 = s.label ∧ Leak cfg.values secrets hit.2 seen := by
  unfold WindowSink.close at hmem
  split_ifs at hmem
  · rw [mem_scan_iff hfits] at hmem
    exact ⟨hmem.1,hmem.2.mono h.buf.isInfix⟩
  · cases hmem

end

end Manvi.DevCouncil
