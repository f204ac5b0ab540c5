import Manvi.Encoding.Blocks
import Manvi.Encoding.Incremental
import Manvi.Encoding.Occurrences
import Manvi.Terminal.Decode

/-! What a decoder decided stays as more arrives, and a search that goes on finds what one from the
start finds. -/
namespace Manvi.Terminal
open Manvi.Encoding

section runes

lemma toNat_byte {n : ℕ} (h : n < 256) : (UInt8.ofNat n).toNat = n := by
  rw [UInt8.toNat_ofNat',Nat.mod_eq_of_lt (by omega)]

lemma leading_two {v : ℕ} (hlow : 0x7f < v) (hhigh : v ≤ 0x7ff) :
    leading (UInt8.ofNat (v/64%0x20+0xc0)) = some (2,0x80,0xbf) := by
  have hn := toNat_byte (n := v/64%0x20+0xc0) (by omega)
  have hge : ¬ UInt8.ofNat (v/64%0x20+0xc0) < 0xc2 := by
    rw [UInt8.lt_iff_toNat_lt,hn]
    simp only [UInt8.reduceToNat]
    omega
  have hle : UInt8.ofNat (v/64%0x20+0xc0) ≤ 0xdf := by
    rw [UInt8.le_iff_toNat_le,hn]
    simp only [UInt8.reduceToNat]
    omega
  rw [leading,if_neg hge,if_pos hle]

/-- The first byte of three says what the second may be, and it is that. -/
lemma leading_three {v : ℕ} (hlow : 0x7ff < v) (hhigh : v ≤ 0xffff) (hv : v.isValidChar) :
    ∃ low high, leading (UInt8.ofNat (v/4096%0x10+0xe0)) = some (3,low,high)
      ∧ ¬ (UInt8.ofNat (v/64%0x40+0x80) < low ∨ high < UInt8.ofNat (v/64%0x40+0x80)) := by
  have hn := toNat_byte (n := v/4096%0x10+0xe0) (by omega)
  have hm := toNat_byte (n := v/64%0x40+0x80) (by omega)
  rw [Nat.isValidChar] at hv
  simp only [leading,UInt8.lt_iff_toNat_lt,UInt8.le_iff_toNat_le,← UInt8.toNat_inj,hn,
    UInt8.reduceToNat]
  rw [if_neg (by omega),if_neg (by omega)]
  by_cases he0 : v/4096%0x10+0xe0 = 0xe0
  · rw [if_pos he0]
    refine ⟨_,_,rfl,?_⟩
    simp only [hm,UInt8.reduceToNat]
    omega
  · rw [if_neg he0]
    by_cases hed : v/4096%0x10+0xe0 = 0xed
    · rw [if_pos hed]
      refine ⟨_,_,rfl,?_⟩
      simp only [hm,UInt8.reduceToNat]
      omega
    · rw [if_neg hed,if_pos (by omega)]
      refine ⟨_,_,rfl,?_⟩
      simp only [hm,UInt8.reduceToNat]
      omega

lemma leading_four {v : ℕ} (hlow : 0xffff < v) (hv : v.isValidChar) :
    ∃ low high, leading (UInt8.ofNat (v/262144%0x08+0xf0)) = some (4,low,high)
      ∧ ¬ (UInt8.ofNat (v/4096%0x40+0x80) < low ∨ high < UInt8.ofNat (v/4096%0x40+0x80)) := by
  have hn := toNat_byte (n := v/262144%0x08+0xf0) (by omega)
  have hm := toNat_byte (n := v/4096%0x40+0x80) (by omega)
  rw [Nat.isValidChar] at hv
  simp only [leading,UInt8.lt_iff_toNat_lt,UInt8.le_iff_toNat_le,← UInt8.toNat_inj,hn,
    UInt8.reduceToNat]
  rw [if_neg (by omega),if_neg (by omega),if_neg (by omega),if_neg (by omega),if_neg (by omega)]
  by_cases hf0 : v/262144%0x08+0xf0 = 0xf0
  · rw [if_pos hf0]
    refine ⟨_,_,rfl,?_⟩
    simp only [hm,UInt8.reduceToNat]
    omega
  · rw [if_neg hf0]
    by_cases hf3 : v/262144%0x08+0xf0 ≤ 0xf3
    · rw [if_pos hf3]
      refine ⟨_,_,rfl,?_⟩
      simp only [hm,UInt8.reduceToNat]
      omega
    · rw [if_neg hf3,if_pos (by omega)]
      refine ⟨_,_,rfl,?_⟩
      simp only [hm,UInt8.reduceToNat]
      omega

lemma continuation {v : ℕ} :
    ¬ (UInt8.ofNat (v%0x40+0x80) < 0x80 ∨ 0xbf < UInt8.ofNat (v%0x40+0x80)) := by
  have hm := toNat_byte (n := v%0x40+0x80) (by omega)
  simp only [UInt8.lt_iff_toNat_lt,hm,UInt8.reduceToNat]
  omega

lemma fullRune_two {a b low high : UInt8} {size : ℕ} (hlead : leading a = some (size,low,high))
    (hsize : 2 < size)
    (hb : ¬ (b < low ∨ high < b)) : fullRune [a,b] = false := by
  rw [fullRune,hlead]
  simp only [List.length_cons,List.length_nil]
  rw [if_neg (by omega),if_neg hb]

lemma fullRune_three {a b d low high : UInt8} (hlead : leading a = some (4,low,high))
    (hb : ¬ (b < low ∨ high < b))
    (hd : ¬ (d < 0x80 ∨ 0xbf < d)) : fullRune [a,b,d] = false := by
  rw [fullRune,hlead]
  simp only [List.length_cons,List.length_nil]
  rw [if_neg (by omega),if_neg hb]
  exact decide_eq_false hd

/-- Part of a character is no whole one. -/
lemma fullRune_part {r : Char} {p q : Bytes} (h : String.utf8EncodeChar r = p ++ q) (hp : p ≠ [])
    (hq : q ≠ []) : fullRune p = false := by
  have hv : r.val.toNat.isValidChar := r.valid
  unfold String.utf8EncodeChar at h
  dsimp only at h
  obtain ⟨a,p,rfl⟩ := List.exists_cons_of_ne_nil hp
  split at h
  case isTrue =>
    rw [List.cons_append,List.cons.injEq] at h
    obtain ⟨-,h⟩ := h
    exact (hq (List.append_eq_nil_iff.mp h.symm).2).elim
  split at h
  case isTrue hlow hhigh =>
    rw [List.cons_append,List.cons.injEq] at h
    obtain ⟨rfl,h⟩ := h
    cases p with
    | nil => rw [fullRune,leading_two (by omega) hhigh]; rfl
    | cons b p =>
      rw [List.cons_append,List.cons.injEq] at h
      obtain ⟨-,h⟩ := h
      exact (hq (List.append_eq_nil_iff.mp h.symm).2).elim
  split at h
  case isTrue hlow hhigh =>
    rw [List.cons_append,List.cons.injEq] at h
    obtain ⟨rfl,h⟩ := h
    obtain ⟨low,high,hlead,hsecond⟩ := leading_three (by omega) hhigh hv
    cases p with
    | nil => rw [fullRune,hlead]; rfl
    | cons b p =>
      rw [List.cons_append,List.cons.injEq] at h
      obtain ⟨rfl,h⟩ := h
      cases p with
      | nil => exact fullRune_two hlead (by omega) hsecond
      | cons d p =>
        rw [List.cons_append,List.cons.injEq] at h
        obtain ⟨-,h⟩ := h
        exact (hq (List.append_eq_nil_iff.mp h.symm).2).elim
  case isFalse hlow =>
    rw [List.cons_append,List.cons.injEq] at h
    obtain ⟨rfl,h⟩ := h
    obtain ⟨low,high,hlead,hsecond⟩ := leading_four (by omega) hv
    cases p with
    | nil => rw [fullRune,hlead]; rfl
    | cons b p =>
      rw [List.cons_append,List.cons.injEq] at h
      obtain ⟨rfl,h⟩ := h
      cases p with
      | nil => exact fullRune_two hlead (by omega) hsecond
      | cons d p =>
        rw [List.cons_append,List.cons.injEq] at h
        obtain ⟨rfl,h⟩ := h
        cases p with
        | nil => exact fullRune_three hlead hsecond continuation
        | cons e p =>
          rw [List.cons_append,List.cons.injEq] at h
          obtain ⟨-,h⟩ := h
          exact (hq (List.append_eq_nil_iff.mp h.symm).2).elim

/-- Bytes that can begin no character do so whatever follows. -/
lemma firstRune_full {s : Bytes} (hs : s ≠ []) (hnone : firstRune s = none) (hfull : fullRune s)
    (more : Bytes) :
    firstRune (s ++ more) = none := by
  cases hr : firstRune (s ++ more) with
  | none => rfl
  | some r =>
    obtain ⟨rest,hrest⟩ := firstRune_iff.mp hr
    obtain ⟨p,hp,-⟩ | ⟨p,rfl,-⟩ := List.append_eq_append_iff.mp hrest
    · by_cases hnil : p = []
      · rw [hnil,List.append_nil] at hp
        rw [firstRune_iff.mpr ⟨[],by rw [hp,List.append_nil]⟩] at hnone
        cases hnone
      · rw [fullRune_part hp hs hnil] at hfull
        cases hfull
    · rw [firstRune_encode] at hnone
      cases hnone

lemma firstRune_some {s : Bytes} {r : Char} (h : firstRune s = some r) (more : Bytes) :
    firstRune (s ++ more) = some r := by
  obtain ⟨rest,rfl⟩ := firstRune_iff.mp h
  rw [List.append_assoc]
  exact firstRune_encode r _

lemma decodeByte_low {b : UInt8} (hb : b < 0x80) (s : Bytes) :
    ∃ ev, decodeByte (b :: s) = (some ev,1) ∧ ∀ s', decodeByte (b :: s') = (some ev,1) := by
  unfold decodeByte
  dsimp only
  repeat' (split; exact ⟨_,rfl,fun _ => rfl⟩)
  exact ⟨_,rfl,fun _ => rfl⟩

lemma decodeByte_high {b : UInt8} (hb : ¬ b < 0x80) (s : Bytes) :
    decodeByte (b :: s) = match firstRune (b :: s) with
    | some r => (some (.rune r .none),r.utf8Size)
    | none => if fullRune (b :: s) then (some (.rune '\uFFFD' .none),1) else (none,0) := by
  have hne : ∀ c : UInt8, c < 0x80 → b ≠ c := fun c hc he => hb (he ▸ hc)
  have hctl : ¬ b < 0x20 := fun hlt => hb (UInt8.lt_trans hlt (by decide))
  have hcontrol : ¬ (b = 0x7f ∨ b = 0x08) := not_or.mpr ⟨hne _ (by decide),hne _ (by decide)⟩
  unfold decodeByte
  cases firstRune (b :: s) <;>
    simp only [hne 0x0d (by decide),hne 0x09 (by decide),hcontrol,hne 0x00 (by decide),
      hne 0x20 (by decide),hctl,hb,if_false]

lemma fullRune_append {s : Bytes} (h : fullRune s) (more : Bytes) : fullRune (s ++ more) := by
  cases s with
  | nil => cases h
  | cons c s =>
    rw [List.cons_append]
    unfold fullRune at h ⊢
    dsimp only at h ⊢
    cases hlead : leading c with
    | none => rfl
    | some l =>
      obtain ⟨size,low,high⟩ := l
      rw [hlead] at h
      dsimp only at h ⊢
      by_cases hlong : size ≤ s.length+1
      · rw [if_pos (by rw [List.length_append]; omega)]
      · rw [if_neg hlong] at h
        split
        · rfl
        · cases s with
          | nil => cases h
          | cons d s =>
            rw [List.cons_append]
            dsimp only at h ⊢
            by_cases hd : d < low ∨ high < d
            · rw [if_pos hd]
            · rw [if_neg hd] at h ⊢
              cases s with
              | nil => cases h
              | cons e s => exact h

/-- What a byte or a character decides stays. -/
lemma decodeByte_stays {s : Bytes} (h : (decodeByte s).2 ≠ 0) (more : Bytes) :
    decodeByte (s ++ more) = decodeByte s := by
  cases s with
  | nil => exact absurd rfl h
  | cons b s =>
    by_cases hb : b < 0x80
    · obtain ⟨ev,hev,hall⟩ := decodeByte_low hb s
      rw [hev,List.cons_append,hall]
    · rw [decodeByte_high hb] at h
      rw [List.cons_append,decodeByte_high hb,decodeByte_high hb,← List.cons_append]
      cases hr : firstRune (b :: s) with
      | some r => rw [firstRune_some hr]
      | none =>
        by_cases hfull : fullRune (b :: s)
        · rw [firstRune_full (by simp) hr hfull]
          dsimp only
          rw [if_pos hfull,if_pos (fullRune_append hfull more)]
        · rw [hr] at h
          exact absurd (if_neg hfull ▸ rfl) h

lemma decodeByte_within (s : Bytes) : (decodeByte s).2 ≤ s.length := by
  cases s with
  | nil => rfl
  | cons b s =>
    by_cases hb : b < 0x80
    · obtain ⟨ev,hev,-⟩ := decodeByte_low hb s
      rw [hev,List.length_cons]
      omega
    · rw [decodeByte_high hb]
      cases hr : firstRune (b :: s) with
      | some r =>
        obtain ⟨rest,hrest⟩ := firstRune_iff.mp hr
        rw [hrest,List.length_append,String.length_utf8EncodeChar]
        exact Nat.le_add_right _ _
      | none =>
        dsimp only
        split
        · rw [List.length_cons]; exact Nat.le_add_left _ _
        · exact Nat.zero_le _

lemma decodeByte_zero {s : Bytes} (h : (decodeByte s).2 = 0) : (decodeByte s).1 = none := by
  cases s with
  | nil => rfl
  | cons b s =>
    by_cases hb : b < 0x80
    · obtain ⟨ev,hev,-⟩ := decodeByte_low hb s
      rw [hev] at h
      cases h
    · rw [decodeByte_high hb] at h ⊢
      cases hr : firstRune (b :: s) with
      | some r =>
        rw [hr] at h
        exact absurd h r.utf8Size_pos.ne'
      | none =>
        rw [hr] at h
        dsimp only at h ⊢
        split at h
        · cases h
        · rw [if_neg (by assumption)]

end runes

section csi
variable {s : Bytes}

lemma csiEnd_stays (h : csiEnd s ≠ .open_) (more : Bytes) : csiEnd (s ++ more) = csiEnd s := by
  induction s with
  | nil => exact absurd rfl h
  | cons c s ih =>
    rw [List.cons_append]
    unfold csiEnd at h ⊢
    split
    · rfl
    · rw [if_neg (by assumption)] at h
      split
      · rfl
      · rw [if_neg (by assumption)] at h
        rw [ih (fun he => h (by rw [he]))]

lemma csiEnd_within {body : Bytes} {c : UInt8} (h : csiEnd s = .final body c) :
    body.length < s.length := by
  induction s generalizing body with
  | nil => cases h
  | cons d s ih =>
    unfold csiEnd at h
    split at h
    · cases h
      exact Nat.succ_pos _
    · split at h
      · cases h
      · cases he : csiEnd s with
        | final body' c' =>
          rw [he] at h
          cases h
          exact Nat.succ_lt_succ (ih he)
        | open_ => rw [he] at h; cases h
        | broken => rw [he] at h; cases h

end csi

section paste
variable {s : Bytes} {m : PasteScan} {flush : Bool}

/-- What is remembered of a paste: so much of it was searched, and no closing marker is in there. -/
def Searched (m : PasteScan) (s : Bytes) : Prop :=
  m = some 0 ∨ ∃ k, m = some k ∧ pasteStart <+: s ∧ k ≤ (s.drop pasteStart.length).length
    ∧ ∀ i, i+pasteEnd.length ≤ k → ¬ Stands pasteEnd (s.drop pasteStart.length) i

lemma pasteEnd_ne : pasteEnd ≠ [] := by decide

/-- A paste, by the first closing marker in it. -/
lemma decodePaste_eq (hv : Searched m s) : ((decodePaste s flush m).1,(decodePaste s flush m).2.1)
    = match index (s.drop pasteStart.length) pasteEnd with
      | none => if flush then (some (.paste (sanitizePaste (s.drop pasteStart.length))),s.length)
        else (none,0)
      | some i => (some (.paste (sanitizePaste ((s.drop pasteStart.length).take i))),
        pasteStart.length+i+pasteEnd.length) := by
  obtain rfl | ⟨k,rfl,-,hle,hnone⟩ := hv
  · unfold decodePaste
    simp only [Nat.zero_le,if_true,Nat.zero_sub,List.drop_zero]
    cases index (s.drop pasteStart.length) pasteEnd with
    | none => cases flush <;> rfl
    | some i => rfl
  · have hfrom := index_from pasteEnd_ne hnone
    unfold decodePaste
    simp only [if_pos hle]
    rw [← hfrom]
    cases index ((s.drop pasteStart.length).drop (k-(pasteEnd.length-1))) pasteEnd with
    | none => cases flush <;> rfl
    | some i => rfl

lemma decodePaste_fresh : ((decodePaste s flush none).1,(decodePaste s flush none).2.1)
    = ((decodePaste s flush (some 0)).1,(decodePaste s flush (some 0)).2.1) := by
  unfold decodePaste
  simp only [Nat.zero_le,if_true,Nat.zero_sub,List.drop_zero]
  cases index (s.drop pasteStart.length) pasteEnd with
  | none => cases flush <;> rfl
  | some i => rfl

lemma decodeAt_paste (h : pasteStart <+: s) : decodeAt s flush m = decodePaste s flush m := by
  obtain ⟨t,rfl⟩ := h
  have hcsi : decodeAt (pasteStart ++ t) flush m = decodeCSI (pasteStart ++ t) flush m := rfl
  rw [hcsi,decodeCSI,if_pos (List.prefix_append _ _)]

/-- Where there is no paste, nothing is remembered. -/
lemma decodeAt_plain (h : ¬ pasteStart <+: s) :
    decodeAt s flush m = ((decode s flush).1,(decode s flush).2,m) := by
  unfold decode decodeAt
  split
  · rfl
  split
  · unfold decodeEscape
    split
    · cases flush <;> rfl
    · split
      · unfold decodeCSI
        rw [if_neg h,if_neg h]
        cases csiEnd (s.drop 2) with
        | broken => rfl
        | open_ => cases flush <;> rfl
        | final body c => rfl
      split
      · rfl
      split
      · rfl
      · dsimp only
        split <;> rfl
  · rfl

/-- What is remembered changes nothing. -/
lemma decodeAt_searched (hv : Searched m s) :
    ((decodeAt s flush m).1,(decodeAt s flush m).2.1) = decode s flush := by
  by_cases hp : pasteStart <+: s
  · unfold decode
    rw [decodeAt_paste hp,decodeAt_paste hp,decodePaste_fresh,decodePaste_eq hv,
      decodePaste_eq (Or.inl rfl)]
  · rw [decodeAt_plain hp]

lemma decode_paste (h : pasteStart <+: s) :
    decode s flush = match index (s.drop pasteStart.length) pasteEnd with
      | none => if flush then (some (.paste (sanitizePaste (s.drop pasteStart.length))),s.length)
        else (none,0)
      | some i => (some (.paste (sanitizePaste ((s.drop pasteStart.length).take i))),
        pasteStart.length+i+pasteEnd.length) := by
  rw [← decodeAt_searched (m := some 0) (Or.inl rfl),decodeAt_paste h,decodePaste_eq (Or.inl rfl)]

end paste

section plain
variable {s t : Bytes} {b c : UInt8} {flush : Bool}

lemma decode_byte (hb : b ≠ 0x1b) : decode (b :: t) flush = decodeByte (b :: t) := by
  unfold decode decodeAt
  rw [if_neg (List.cons_ne_nil _ _),if_neg (by simpa using hb)]

lemma decode_csi (hp : ¬ pasteStart <+: 0x1b :: 0x5b :: t) :
    decode (0x1b :: 0x5b :: t) flush = match csiEnd t with
    | .broken => (escapeKey,1)
    | .open_ => if flush then (escapeKey,1) else (none,0)
    | .final body c => (csiEvent body c,body.length+3) := by
  have hcsi : decode (0x1b :: 0x5b :: t) flush
      = ((decodeCSI (0x1b :: 0x5b :: t) flush none).1,
        (decodeCSI (0x1b :: 0x5b :: t) flush none).2.1) := rfl
  rw [hcsi,decodeCSI,if_neg hp]
  rw [List.drop_succ_cons,List.drop_succ_cons,List.drop_zero]
  cases csiEnd t with
  | broken => rfl
  | open_ => cases flush <;> rfl
  | final body c => rfl

lemma decode_alt (hcsi : c ≠ 0x5b) (hss3 : c ≠ 0x4f) (hesc : c ≠ 0x1b) :
    decode (0x1b :: c :: t) flush
    = if (decodeByte (c :: t)).2 = 0 then (none,0) else ((decodeByte (c :: t)).1.map Event.withAlt,
      (decodeByte (c :: t)).2+1) := by
  have halt : decode (0x1b :: c :: t) flush
      = ((decodeEscape (0x1b :: c :: t) flush none).1,
        (decodeEscape (0x1b :: c :: t) flush none).2.1) := rfl
  rw [halt,decodeEscape]
  dsimp only [List.tail_cons]
  rw [if_neg hcsi,if_neg hss3,if_neg hesc]
  split <;> rfl

/-- What stands at the head of a buffer. -/
inductive Head : Bytes → Prop where
  | nothing : Head []
  | byte (b : UInt8) (t : Bytes) (hb : b ≠ 0x1b) : Head (b :: t)
  | lone : Head [0x1b]
  | csi (t : Bytes) : Head (0x1b :: 0x5b :: t)
  | ss3 (t : Bytes) : Head (0x1b :: 0x4f :: t)
  | twice (t : Bytes) : Head (0x1b :: 0x1b :: t)
  | alt (c : UInt8) (t : Bytes) (hcsi : c ≠ 0x5b) (hss3 : c ≠ 0x4f) (hesc : c ≠ 0x1b) :
      Head (0x1b :: c :: t)

lemma head (s : Bytes) : Head s := by
  cases s with
  | nil => exact .nothing
  | cons b t =>
    by_cases hb : b = 0x1b
    · subst hb
      cases t with
      | nil => exact .lone
      | cons c t =>
        by_cases hcsi : c = 0x5b
        · exact hcsi ▸ .csi t
        by_cases hss3 : c = 0x4f
        · exact hss3 ▸ .ss3 t
        by_cases hesc : c = 0x1b
        · exact hesc ▸ .twice t
        · exact .alt c t hcsi hss3 hesc
    · exact .byte b t hb

/-- What may still become a paste is not decided. -/
lemma decode_opening (h : s <+: pasteStart) (hne : s ≠ pasteStart) : decode s false = (none,0) := by
  have hall : ∀ s ∈ pasteStart.inits, s ≠ pasteStart → decode s false = (none,0) := by decide
  exact hall s ((List.mem_inits s pasteStart).mpr h) hne

/-- What was decided stays as more arrives, and as the stream ends. -/
lemma decode_stays (more : Bytes) (flush : Bool) (h : (decode s false).2 ≠ 0) :
    decode (s ++ more) flush = decode s false := by
  by_cases hp : pasteStart <+: s
  · have hrest : (s ++ more).drop pasteStart.length = s.drop pasteStart.length ++ more :=
      List.drop_append_of_le_length hp.length_le
    rw [decode_paste hp] at h
    rw [decode_paste hp,decode_paste (hp.trans (List.prefix_append _ _)),hrest]
    cases hi : index (s.drop pasteStart.length) pasteEnd with
    | none => rw [hi] at h; exact absurd rfl h
    | some i =>
      have hle := index_within hi
      rw [index_append hi]
      dsimp only
      rw [List.take_append_of_le_length (by omega)]
  have hp' : ¬ pasteStart <+: s ++ more := by
    intro hlong
    by_cases hlen : pasteStart.length ≤ s.length
    · exact hp (List.prefix_of_prefix_length_le hlong (List.prefix_append _ _) hlen)
    · have hshort : s <+: pasteStart :=
        List.prefix_of_prefix_length_le (List.prefix_append _ _) hlong (by omega)
      rw [decode_opening hshort (fun he => hlen (by rw [he]))] at h
      exact h rfl
  cases head s with
  | nothing => exact absurd rfl h
  | byte b t hb =>
    rw [decode_byte hb] at h
    rw [List.cons_append,decode_byte hb,decode_byte hb,← List.cons_append]
    exact decodeByte_stays h more
  | lone => exact absurd rfl h
  | csi t =>
    rw [decode_csi hp] at h
    rw [List.cons_append,List.cons_append] at hp' ⊢
    rw [decode_csi hp',decode_csi hp]
    have hopen : csiEnd t ≠ .open_ := fun he => h (by rw [he]; rfl)
    rw [csiEnd_stays hopen]
    cases he : csiEnd t with
    | broken => rfl
    | open_ => exact absurd he hopen
    | final body c => rfl
  | ss3 t => cases t with
    | nil => exact absurd rfl h
    | cons c t => rfl
  | twice t => rfl
  | alt c t hcsi hss3 hesc =>
    rw [decode_alt hcsi hss3 hesc] at h
    have hn : (decodeByte (c :: t)).2 ≠ 0 := fun he => h (by rw [if_pos he])
    rw [List.cons_append,List.cons_append,decode_alt hcsi hss3 hesc,decode_alt hcsi hss3 hesc,
      ← List.cons_append,decodeByte_stays hn]

lemma decode_within (s : Bytes) (flush : Bool) : (decode s flush).2 ≤ s.length := by
  by_cases hp : pasteStart <+: s
  · have hlen := hp.length_le
    rw [decode_paste hp]
    cases hi : index (s.drop pasteStart.length) pasteEnd with
    | none => cases flush with
      | true => exact le_rfl
      | false => exact Nat.zero_le _
    | some i =>
      have hle := index_within hi
      rw [List.length_drop] at hle
      dsimp only
      omega
  cases head s with
  | nothing => exact Nat.zero_le _
  | byte b t hb => rw [decode_byte hb]; exact decodeByte_within _
  | lone => cases flush <;> decide
  | csi t =>
    rw [decode_csi hp]
    cases he : csiEnd t with
    | broken => exact Nat.succ_pos _
    | open_ => cases flush with
      | true => exact Nat.succ_pos _
      | false => exact Nat.zero_le _
    | final body c =>
      have := csiEnd_within he
      simp only [List.length_cons]
      omega
  | ss3 t => cases t with
    | nil => cases flush <;> decide
    | cons c t => simp only [List.length_cons]; exact Nat.le_add_left 3 _
  | twice t => exact Nat.succ_pos _
  | alt c t hcsi hss3 hesc =>
    rw [decode_alt hcsi hss3 hesc]
    have := decodeByte_within (c :: t)
    split
    · exact Nat.zero_le _
    · exact Nat.succ_le_succ this

/-- Where nothing is taken there is no event. -/
lemma decode_zero (h : (decode s flush).2 = 0) : (decode s flush).1 = none := by
  by_cases hp : pasteStart <+: s
  · rw [decode_paste hp] at h ⊢
    cases hi : index (s.drop pasteStart.length) pasteEnd with
    | none => cases flush with
      | true =>
        rw [hi] at h
        have hnil : s.length = 0 := h
        have hlen := hp.length_le
        rw [hnil] at hlen
        cases hlen
      | false => rfl
    | some i => rw [hi] at h; exact absurd h (by simp [pasteStart])
  cases head s with
  | nothing => rfl
  | byte b t hb =>
    rw [decode_byte hb] at h ⊢
    exact decodeByte_zero h
  | lone => cases flush with
    | true => cases h
    | false => rfl
  | csi t =>
    rw [decode_csi hp] at h ⊢
    cases he : csiEnd t with
    | broken => rw [he] at h; cases h
    | open_ => cases flush with
      | true => rw [he] at h; cases h
      | false => rfl
    | final body c => rw [he] at h; cases h
  | ss3 t => cases t with
    | nil => cases flush with
      | true => cases h
      | false => rfl
    | cons c t => cases h
  | twice t => cases h
  | alt c t hcsi hss3 hesc =>
    rw [decode_alt hcsi hss3 hesc] at h ⊢
    split at h
    · rw [if_pos (by assumption)]
    · cases h

end plain
end Manvi.Terminal
