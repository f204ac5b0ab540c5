import Manvi.Terminal.Reader

/-! What a paste carries, and what of it becomes keys. -/
namespace Manvi.Terminal
open Manvi.Encoding

/-- How a line ends where a text was written. -/
inductive Ending where
  | lf
  | cr
  | crlf
  deriving Repr, DecidableEq

def Ending.chars : Ending → List Char
  | .lf => ['\n']
  | .cr => ['\r']
  | .crlf => ['\r','\n']

/-- A line: what stands between two line endings. -/
structure Line where
  chars : List Char
  newline : '\n' ∉ chars
  carriage : '\r' ∉ chars

/-- Lines written one after another. -/
def written (e : Ending) (lines : List Line) : List Char :=
  e.chars.intercalate (lines.map Line.chars)

/-- A control character: C0, DEL or C1. -/
def control (r : Char) : Bool :=
  r.toNat < 0x20 || r.toNat = 0x7f || (0x80 ≤ r.toNat && r.toNat < 0xa0)

/-- A line without its control characters, tab excepted. -/
def Line.clean (line : Line) : List Char := line.chars.filter (fun r => r = '\t' || !control r)

/-- What the terminal sends for a text that is pasted. -/
def pasteBytes (text : List Char) : Bytes := pasteStart ++ (utf8Bytes text ++ pasteEnd)

/-- The paste event is the whole of what was sent, and carries the lines joined by single newlines
and without controls, whatever ends them. -/
def PastesLines (lines : List Line) : Prop := ∀ e flush, decode (pasteBytes (written e lines)) flush
  = (some (.paste (['\n'].intercalate (lines.map Line.clean))),
    (pasteBytes (written e lines)).length)

section text
variable {content : Bytes} {lines : List Line}

lemma sanitizePaste_chars (text : List Char) :
    sanitizePaste (utf8Bytes text) = text.filterMap keepRune := by
  rw [sanitizePaste,runes_utf8Bytes]

/-- A paste ends where its content does just when no closing marker stands in that. -/
lemma index_content (content : Bytes) : index (content ++ pasteEnd) pasteEnd = some content.length ↔
    ∀ k, ¬ Stands pasteEnd content k := by
  rw [index_eq_some pasteEnd_ne]
  constructor
  · rintro ⟨-,hbefore⟩ k hk
    have hlen := Stands.lt pasteEnd_ne hk
    have hpos := List.length_pos_iff.mpr pasteEnd_ne
    exact hbefore k (by omega) (stands_append pasteEnd_ne hk _)
  · intro hnone
    refine ⟨?_,fun k hk hstands =>
      hnone k (stands_of_append hstands (stands_before (e := 0x1b) (by decide) hstands hk))⟩
    rw [Stands,List.drop_left]

lemma decode_pasteBytes (text : List Char) (flush : Bool) (out : List Char) :
    decode (pasteBytes text) flush = (some (.paste out),(pasteBytes text).length)
      ↔ (∀ k, ¬ Stands pasteEnd (utf8Bytes text) k) ∧ text.filterMap keepRune = out := by
  rw [← index_content,pasteBytes,decode_paste (List.prefix_append _ _),List.drop_left]
  have hthere : Stands pasteEnd (utf8Bytes text ++
    pasteEnd) (utf8Bytes text).length := by rw [Stands,List.drop_left]
  cases hi : index (utf8Bytes text ++ pasteEnd) pasteEnd with
  | none => exact absurd hthere ((index_eq_none pasteEnd_ne).mp hi _)
  | some i =>
    have hlen : (pasteStart ++ (utf8Bytes text ++ pasteEnd)).length =
      pasteStart.length+(utf8Bytes text).length+pasteEnd.length := by
      rw [List.length_append,List.length_append]
      omega
    rw [hlen]
    constructor
    · intro h
      obtain ⟨hpaste,hn⟩ := Prod.mk.inj h
      obtain rfl : i = (utf8Bytes text).length := by omega
      rw [List.take_left,sanitizePaste_chars] at hpaste
      exact ⟨rfl,by simpa using hpaste⟩
    · rintro ⟨hend,hout⟩
      obtain rfl := Option.some.inj hend
      dsimp only
      rw [List.take_left,sanitizePaste_chars,hout]

/-- Joined parts are kept part by part. -/
lemma filterMap_intercalate {α β : Type} (f : α → Option β) (sep : List α) (parts : List (List α)) :
    (sep.intercalate parts).filterMap f = (sep.filterMap f).intercalate
    (parts.map (List.filterMap f)) := by
  induction parts with
  | nil => rfl
  | cons a parts ih => cases parts with
    | nil => simp [List.intercalate]
    | cons b parts =>
      rw [List.intercalate_cons_cons,List.filterMap_append,List.filterMap_append,ih,List.map_cons,
        List.map_cons,List.map_cons,
        List.intercalate_cons_cons]

lemma count_intercalate {α : Type} [DecidableEq α] (a : α) (sep : List α) (parts : List (List α))
    (h : ∀ part ∈ parts, a ∉ part) :
    (sep.intercalate parts).count a = (parts.length-1)*sep.count a := by
  induction parts with
  | nil => simp [List.intercalate]
  | cons x parts ih =>
    have hx : x.count a = 0 := List.count_eq_zero.mpr (h x (by simp))
    cases parts with
    | nil => simp [List.intercalate,hx]
    | cons y parts =>
      rw [List.intercalate_cons_cons,List.count_append,List.count_append,
        ih (fun part hpart => h part (by simp [hpart])),hx]
      simp only [List.length_cons,Nat.add_sub_cancel]
      ring

/-- A character that is no C0 control or DEL, or is a tab. -/
def plainRune (r : Char) : Bool := r = '\t' || !(r.toNat < 0x20 || r.toNat = 0x7f)

lemma keepRune_plain {r : Char} (hnewline : r ≠ '\n') (hcarriage : r ≠ '\r') :
    keepRune r = Option.guard (plainRune ·) r := by
  unfold keepRune Option.guard plainRune
  by_cases htab : r = '\t'
  · simp [htab]
  · rw [if_neg (not_or.mpr ⟨hnewline,htab⟩),if_neg hcarriage]
    by_cases hctl : r.toNat < 0x20 ∨ r.toNat = 0x7f
    · rw [if_pos hctl,if_neg (by simp only [Bool.or_eq_true,Bool.not_eq_true',Bool.or_eq_false_iff,
        decide_eq_true_eq,
        decide_eq_false_iff_not]; tauto)]
    · rw [if_neg hctl,if_pos (by simp only [Bool.or_eq_true,Bool.not_eq_true',Bool.or_eq_false_iff,
        decide_eq_true_eq,
        decide_eq_false_iff_not]; tauto)]

lemma Line.kept (line : Line) : line.chars.filterMap keepRune = line.chars.filter plainRune := by
  rw [← List.filterMap_eq_filter]
  refine List.filterMap_congr (fun r hr => keepRune_plain ?_ ?_)
  · rintro rfl
    exact line.newline hr
  · rintro rfl
    exact line.carriage hr

lemma not_mem_kept (line : Line) : '\n' ∉ line.chars.filterMap keepRune := by
  rw [Line.kept]
  exact fun h => line.newline (List.mem_filter.mp h).1

lemma not_mem_clean (line : Line) : '\n' ∉ line.clean :=
    fun h => line.newline (List.mem_filter.mp h).1

/-- A line is kept as it should be just when it has no C1 character. -/
lemma kept_eq_clean (line : Line) : line.chars.filterMap keepRune = line.clean ↔ ∀ r ∈ line.chars,
    ¬ (0x80 ≤ r.toNat ∧ r.toNat < 0xa0) := by
  rw [Line.kept,Line.clean]
  constructor
  · intro h r hr hc1
    have hkept : r ∈ line.chars.filter plainRune := by
      refine List.mem_filter.mpr ⟨hr,?_⟩
      simp only [plainRune,Bool.or_eq_true,Bool.not_eq_true',Bool.or_eq_false_iff,decide_eq_true_eq,
        decide_eq_false_iff_not]
      omega
    rw [h,List.mem_filter] at hkept
    have htab : r ≠ '\t' := by
      rintro rfl
      exact absurd hc1.1 (by decide)
    simp [htab,control] at hkept
    omega
  · intro h
    refine List.filter_congr (fun r hr => ?_)
    have := h r hr
    have hc1 : (decide (0x80 ≤ r.toNat) && decide (r.toNat < 0xa0)) = false := by simpa using this
    rw [plainRune,control,hc1,Bool.or_false]

/-- A paste keeps its lines and loses its controls just when it is of one line at most, with no C1
character and no closing marker. -/
lemma pastesLines_iff (lines : List Line) : PastesLines lines ↔ lines.length ≤ 1
    ∧ ∀ line ∈ lines, (∀ r ∈ line.chars, ¬ (0x80 ≤ r.toNat ∧ r.toNat < 0xa0)) ∧ ∀ k,
    ¬ Stands pasteEnd (utf8Bytes line.chars) k := by
  have hpaste : PastesLines lines ↔ ∀ e, (∀ k, ¬ Stands pasteEnd (utf8Bytes (written e lines)) k)
      ∧ (e.chars.filterMap keepRune).intercalate
      (lines.map (fun line => line.chars.filterMap keepRune))
        = ['\n'].intercalate (lines.map Line.clean) := by
    unfold PastesLines
    refine forall_congr' (fun e => ?_)
    simp only [decode_pasteBytes,forall_const]
    rw [written,filterMap_intercalate,List.map_map]
    rfl
  rw [hpaste]
  constructor
  · intro h
    have hkept : ∀ part ∈ lines.map (fun line => line.chars.filterMap keepRune), '\n' ∉ part := by
      intro part hpart
      obtain ⟨line,-,rfl⟩ := List.mem_map.mp hpart
      exact not_mem_kept line
    have hclean : ∀ part ∈ lines.map Line.clean, '\n' ∉ part := by
      intro part hpart
      obtain ⟨line,-,rfl⟩ := List.mem_map.mp hpart
      exact not_mem_clean line
    have hcount := congrArg (List.count '\n') (h .crlf).2
    rw [count_intercalate _ _ _ hkept,count_intercalate _ _ _ hclean] at hcount
    have htwo : List.count '\n' (Ending.crlf.chars.filterMap keepRune) = 2 := by decide
    rw [htwo,List.length_map,List.length_map,List.count_singleton_self] at hcount
    refine ⟨by omega,fun line hline => ?_⟩
    obtain rfl : lines = [line] := by
      cases lines with
      | nil => cases hline
      | cons l lines => cases lines with
        | nil => rw [List.mem_singleton.mp hline]
        | cons l' lines => simp at hcount
    have hlf := h .lf
    simp [List.intercalate,written] at hlf
    exact ⟨(kept_eq_clean line).mp hlf.2,hlf.1⟩
  · rintro ⟨hlen,hline⟩ e
    cases lines with
    | nil => 
      refine ⟨fun k => not_stands_nil pasteEnd_ne,rfl⟩
    | cons line lines =>
      obtain rfl : lines = [] := List.length_eq_zero_iff.mp (by simpa using hlen)
      obtain ⟨hc1,hmarker⟩ := hline line (by simp)
      simp [List.intercalate,written]
      exact ⟨hmarker,(kept_eq_clean line).mpr hc1⟩

end text

/-- For each byte that was taken, the event it was delivered in. -/
def owners (ts : List (Taken UInt8 Event)) : List (Option Event) :=
  ts.flatMap (fun t => t.bytes.map (fun _ => t.item))

def delivered (turns : List (Turn UInt8)) (last : Bytes) : List (Option Event) :=
  owners (reader.run turns last)

section runs
variable {before content post x : Bytes}

@[simp] lemma owners_append (ts us : List (Taken UInt8 Event)) : owners (ts ++ us) = owners ts ++
    owners us := List.flatMap_append

@[simp] lemma owners_cons (t : Taken UInt8 Event) (ts : List (Taken UInt8 Event)) :
    owners (t :: ts) = List.replicate t.bytes.length t.item ++ owners ts := by
  rw [owners,List.flatMap_cons,List.map_const']
  rfl

@[simp] lemma owners_length (ts : List (Taken UInt8 Event)) :
    (owners ts).length = (ts.flatMap Taken.bytes).length := by
  induction ts with
  | nil => rfl
  | cons t ts ih =>
    rw [owners_cons,List.length_append,List.length_replicate,ih,List.flatMap_cons,
      List.length_append]

lemma owners_stream (s : Bytes) :
    (owners (stream decode s)).length = s.length := by rw [owners_length,stream_bytes]

/-- A character does not reach over an escape byte. -/
lemma decodeByte_before (h : before ≠ []) :
    (decodeByte (before ++ 0x1b :: x)).2 ≤ before.length := by
  have hrune : firstRune (before ++ 0x1b :: x) = firstRune before := by
    refine firstRune_append h (fun y hy => ?_)
    cases hy
    decide
  have hpos := List.length_pos_iff.mpr h
  obtain ⟨b,t,rfl⟩ := List.exists_cons_of_ne_nil h
  by_cases hb : b < 0x80
  · obtain ⟨ev,hev,-⟩ := decodeByte_low hb (t ++ 0x1b :: x)
    rw [List.cons_append,hev]
    exact hpos
  · rw [List.cons_append,decodeByte_high hb,← List.cons_append,hrune]
    cases hr : firstRune (b :: t) with
    | some r =>
      obtain ⟨rest,hrest⟩ := firstRune_iff.mp hr
      rw [hrest,List.length_append,String.length_utf8EncodeChar]
      exact Nat.le_add_right _ _
    | none =>
      dsimp only
      split
      · exact hpos
      · exact Nat.zero_le _

lemma csiEnd_before {t body : Bytes} {c : UInt8} (h : csiEnd (t ++ 0x1b :: x) = .final body c) :
    body.length < t.length := by
  induction t generalizing body with
  | nil => cases h
  | cons d t ih =>
    rw [List.cons_append] at h
    unfold csiEnd at h
    split at h
    · cases h
      exact Nat.succ_pos _
    · split at h
      · cases h
      · cases he : csiEnd (t ++ 0x1b :: x) with
        | final body' c' =>
          rw [he] at h
          cases h
          exact Nat.succ_lt_succ (ih he)
        | open_ => rw [he] at h; cases h
        | broken => rw [he] at h; cases h

/-- Nothing but ESC O reaches over an escape byte that comes behind it. -/
lemma decode_before (h : before ≠ []) (hp : ¬ pasteStart <+: before ++ 0x1b :: x)
    (hss3 : before ≠ [0x1b,0x4f]) :
    (decode (before ++ 0x1b :: x) true).2 ≤ before.length := by
  cases head before with
  | nothing => exact absurd rfl h
  | byte b t hb =>
    rw [List.cons_append,decode_byte hb,← List.cons_append]
    exact decodeByte_before h
  | lone => exact le_rfl
  | csi t =>
    rw [List.cons_append,List.cons_append] at hp ⊢
    rw [decode_csi hp]
    cases he : csiEnd (t ++ 0x1b :: x) with
    | broken => exact Nat.succ_pos _
    | open_ => exact Nat.succ_pos _
    | final body c =>
      have := csiEnd_before he
      simp only [List.length_cons]
      omega
  | ss3 t => cases t with
    | nil => exact absurd rfl hss3
    | cons c t => exact Nat.le_add_left 3 _
  | twice t => exact Nat.succ_pos _
  | alt c t hcsi hss3' hesc =>
    have hle := decodeByte_before (x := x) (List.cons_ne_nil c t)
    rw [List.cons_append] at hle
    rw [List.cons_append,List.cons_append,decode_alt hcsi hss3' hesc]
    split
    · exact Nat.zero_le _
    · exact Nat.succ_le_succ hle

/-- So many bytes from some place on were delivered in pastes. -/
def Pasted (os : List (Option Event)) (k n : ℕ) : Prop :=
  ∀ o ∈ (os.drop k).take n, ∃ text, o = some (.paste text)

lemma pasted_first {ts : List (Taken UInt8 Event)} {bytes : Bytes} {text : List Char} {k n : ℕ}
    (h : k+n ≤ bytes.length) :
    Pasted (owners (⟨bytes,some (.paste text)⟩ :: ts)) k n := by
  intro o ho
  rw [owners_cons,List.take_drop,
    List.take_append_of_le_length (by rw [List.length_replicate]; exact h)] at ho
  exact ⟨text,List.eq_of_mem_replicate (List.mem_of_mem_take (List.mem_of_mem_drop ho))⟩

lemma pasted_append (os : List (Option Event)) {os' : List (Option Event)} {k n : ℕ}
    (h : Pasted os' k n) : Pasted (os ++ os') (os.length+k) n := by
  intro o ho
  rw [List.drop_length_add_append] at ho
  exact h o ho

lemma pasted_left {os os' : List (Option Event)} {k n : ℕ} (h : Pasted os k n)
    (hle : k+n ≤ os.length) : Pasted (os ++ os') k n := by
  intro o ho
  rw [List.take_drop,List.take_append_of_le_length hle,← List.take_drop] at ho
  exact h o ho

/-- Behind what is taken before it, a paste is delivered as it is from there. -/
lemma pasted_behind {ts : List (Taken UInt8 Event)} {bytes : Bytes} {item : Option Event} {j n : ℕ}
    (hle : bytes.length ≤ j)
    (h : Pasted (owners ts) (j-bytes.length) n) : Pasted (owners (⟨bytes,item⟩ :: ts)) j n := by
  have := pasted_append (List.replicate bytes.length item) h
  rw [List.length_replicate,Nat.add_sub_cancel' hle] at this
  rw [owners_cons]
  exact this

/-- The closing marker that ends an outer paste comes behind the content of an inner one. -/
lemma stands_behind (hclose : ∀ k < content.length, ¬ Stands pasteEnd (content ++ post) k) {k : ℕ}
    (h : Stands pasteEnd (pasteStart ++ (content ++ post)) k) :
    pasteStart.length+content.length ≤ k := by
  by_contra hlt
  by_cases hk : pasteStart.length ≤ k
  · obtain ⟨j,rfl⟩ := Nat.exists_eq_add_of_le hk
    rw [← stands_drop,List.drop_left] at h
    exact hclose j (by omega) h
  · rw [Stands,List.drop_append_of_le_length (by omega)] at h
    have hk' : k < 6 := not_le.mp hk
    interval_cases k <;> simp [pasteStart,pasteEnd] at h

/-- An opening marker that begins before another ends before it. -/
lemma pasteStart_before (hbefore : before ≠ []) (hp : pasteStart <+: before ++ 0x1b :: x) :
    pasteStart.length ≤ before.length := by
  have h := stands_before (e := 0x1b) (w := pasteStart.tail) (k := 0) (by decide) hp
    (List.length_pos_iff.mpr hbefore)
  rwa [Nat.zero_add] at h

/-- A paste that ends behind an opening marker ends behind what follows that. -/
lemma stands_outer (hclose : ∀ k < content.length, ¬ Stands pasteEnd (content ++ post) k) {i : ℕ}
    (hp : pasteStart <+: before ++ (pasteStart ++ (content ++ post)))
    (h : Stands pasteEnd ((before ++ (pasteStart ++ (content ++ post))).drop pasteStart.length) i)
    (hinside : ¬ pasteStart.length+i+pasteEnd.length ≤ before.length) :
    before.length+content.length ≤ i := by
  by_cases hbefore : before = []
  · subst hbefore
    rw [List.nil_append,List.drop_left] at h
    by_contra hlt
    exact hclose i (by rw [List.length_nil] at hlt; omega) h
  · have hlong := pasteStart_before hbefore hp
    rw [List.drop_append_of_le_length hlong] at h
    have hge : (before.drop pasteStart.length).length ≤ i := by
      by_contra hlt
      have := stands_before (e := 0x1b) (b := pasteStart.tail ++
        (content ++ post)) (by decide) h (not_le.mp hlt)
      rw [List.length_drop] at this
      exact hinside (by simp only [pasteEnd,pasteStart,List.length_cons,
        List.length_nil] at this ⊢; omega)
    obtain ⟨j,rfl⟩ := Nat.exists_eq_add_of_le hge
    rw [← stands_drop,List.drop_left] at h
    have := stands_behind hclose h
    rw [List.length_drop]
    omega

/-- What comes behind an opening marker is delivered in a paste, up to the closing marker. -/
lemma stream_pasted (hclose : ∀ k < content.length, ¬ Stands pasteEnd (content ++ post) k)
    (hss3 : ¬ [0x1b,0x4f] <:+ before) :
    Pasted (owners (stream decode (before ++ (pasteStart ++ (content ++ post)))))
    (before.length+pasteStart.length) content.length := by
  induction hlen : before.length using Nat.strong_induction_on generalizing before with
  | _ len ih =>
    subst hlen
    have hne : before ++ (pasteStart ++ (content ++ post)) ≠ [] := by simp [pasteStart]
    have hadvance : ∀ m item, m ≠ 0 → m ≤ before.length →
      Pasted (owners (⟨(before ++ (pasteStart ++ (content ++ post))).take m,item⟩
        :: stream decode ((before ++ (pasteStart ++ (content ++ post))).drop m)))
        (before.length+pasteStart.length) content.length := by
      intro m item hm hle
      have hbytes : ((before ++ (pasteStart ++ (content ++ post))).take m).length = m := by
        rw [List.length_take,List.length_append]
        omega
      have hrest := ih (before.drop m).length (by rw [List.length_drop]; omega)
        (fun hsuffix => hss3 (hsuffix.trans (List.drop_suffix _ _))) rfl
      refine pasted_behind (by omega) ?_
      rw [hbytes,List.drop_append_of_le_length hle]
      rwa [List.length_drop,← Nat.sub_add_comm hle] at hrest
    by_cases hp : pasteStart <+: before ++ (pasteStart ++ (content ++ post))
    · have hdecode := @decode_paste _ true hp
      cases hi : index ((before ++
        (pasteStart ++ (content ++ post))).drop pasteStart.length) pasteEnd with
      | none =>
        rw [hi] at hdecode
        rw [stream_step hne hdecode (fun he => hne (List.length_eq_zero_iff.mp he)),
          List.take_length]
        refine pasted_first ?_
        simp only [List.length_append]
        omega
      | some i =>
        rw [hi] at hdecode
        have hthere := ((index_eq_some pasteEnd_ne).mp hi).1
        have hwithin := index_within hi
        rw [List.length_drop] at hwithin
        rw [stream_step hne hdecode (by simp [pasteStart])]
        by_cases hinside : pasteStart.length+i+pasteEnd.length ≤ before.length
        · exact hadvance _ _ (by simp [pasteStart]) hinside
        · have hend := stands_outer hclose hp hthere hinside
          refine pasted_first ?_
          rw [List.length_take]
          simp only [pasteEnd,pasteStart,List.length_cons,List.length_nil] at hwithin ⊢
          omega
    · have hbefore : before ≠ [] := fun he => hp (he ▸ List.prefix_append _ _)
      have hpos := List.length_pos_iff.mpr hbefore
      have hle := decode_before (x := pasteStart.tail ++ (content ++ post)) hbefore hp (fun he =>
        hss3 (he ▸ List.suffix_rfl))
      by_cases hn : (decode (before ++ (pasteStart ++ (content ++ post))) true).2 = 0
      · rw [stream_drop hne hn,← List.drop_one]
        exact hadvance 1 none one_ne_zero hpos
      · rw [stream_step hne rfl hn]
        exact hadvance _ _ hn hle

/-- The bytes behind an opening marker up to the first closing marker are delivered in pastes,
wherever the grace period did not end among them. -/
lemma delivered_pasted {turns : List (Turn UInt8)} {last : Bytes} {earlier later : List Bytes}
    (hturns : segments [] turns last = earlier ++
      (before ++ (pasteStart ++ (content ++ post))) :: later)
    (hclose : ∀ k < content.length, ¬ Stands pasteEnd (content ++ post) k)
    (hss3 : ¬ [0x1b,0x4f] <:+ before) :
    Pasted (delivered turns last)
    (earlier.flatten.length+(before.length+pasteStart.length)) content.length := by
  have hearlier : (owners (earlier.flatMap (stream decode))).length = earlier.flatten.length := by
    rw [owners_length,List.flatMap_assoc]
    simp only [stream_bytes]
    rw [List.flatMap_id']
  rw [delivered,run_segments reader_stable,hturns,List.flatMap_append,List.flatMap_cons,
    owners_append,owners_append,← hearlier]
  refine pasted_append _ (pasted_left (stream_pasted hclose hss3) ?_)
  rw [owners_stream]
  simp only [List.length_append]
  omega

end runs

/-- A paste keeps its lines and loses its controls just when it has one line at most, no C1
character and no closing marker; and in every run what stands between an opening marker and the
first closing marker is delivered in pastes, where the grace period does not end from the one to the
other and the opening marker does not come right behind ESC O. -/
theorem pastes_whole_iff (lines : List Line) (turns : List (Turn UInt8)) (last : Bytes)
    (earlier later : List Bytes)
    (before content post : Bytes) : (PastesLines lines ↔ lines.length ≤ 1 ∧ ∀ line ∈ lines,
      (∀ r ∈ line.chars, ¬ (0x80 ≤ r.toNat ∧ r.toNat < 0xa0)) ∧ ∀ k,
      ¬ Stands pasteEnd (utf8Bytes line.chars) k)
    ∧ (segments [] turns last = earlier ++ (before ++ (pasteStart ++ (content ++ post))) :: later →
      (∀ k < content.length, ¬ Stands pasteEnd (content ++ post) k) → ¬ [0x1b,0x4f] <:+ before →
      Pasted (delivered turns last)
      (earlier.flatten.length+(before.length+pasteStart.length)) content.length) :=
  ⟨pastesLines_iff lines,fun hturns hclose hss3 => delivered_pasted hturns hclose hss3⟩

def pausedPaste : List (Turn UInt8) :=
  [.chunk (pasteStart ++ [0x61,0x62]),.expired,.chunk ([0x63,0x64] ++ pasteEnd)]

/-- Two lines that end with CRLF come apart by an empty line, a C1 character stays, and what comes
after a pause within a paste is typed. -/
theorem not_pastes_whole : ¬ PastesLines [⟨['a'],by decide,by decide⟩,⟨['b'],by decide,by decide⟩]
    ∧ ¬ PastesLines [⟨['\u009b'],by decide,by decide⟩]
    ∧ (segments [] pausedPaste []).flatten = pasteStart ++ ([0x61,0x62,0x63,0x64] ++ pasteEnd)
    ∧ ¬ Pasted (delivered pausedPaste []) pasteStart.length 4
    ∧ run pausedPaste [] "EOF" = [.paste ['a','b'],.rune 'c' .none,.rune 'd' .none,
      .error "EOF"] := by
  refine ⟨fun h => ?_,fun h => ?_,by decide,fun h => ?_,by decide⟩
  · exact absurd ((pastesLines_iff _).mp h).1 (by decide)
  · exact ((((pastesLines_iff _).mp h).2 _ (List.mem_singleton.mpr rfl)).1 '\u009b' (by simp))
      (by decide)
  · have hkeys : ∃ o ∈ ((delivered pausedPaste []).drop pasteStart.length).take 4,
      o = some (Event.rune 'c' .none) := by decide
    obtain ⟨o,ho,rfl⟩ := hkeys
    obtain ⟨text,htext⟩ := h _ ho
    cases htext

end Manvi.Terminal
