import Mathlib

/-! Bytes read as UTF-8, one replacement character for each byte that is no part of a character. -/
namespace Manvi.Encoding

/-- The character at the start of some bytes. -/
def firstRune (bytes : List UInt8) : Option Char := bytes.toByteArray.utf8DecodeChar? 0

def runesAux : ℕ → List UInt8 → List Char
  | 0,_ => []
  | _+1,[] => []
  | fuel+1,b :: bs => match firstRune (b :: bs) with
    | some c => c :: runesAux fuel ((b :: bs).drop c.utf8Size)
    | none => '\uFFFD' :: runesAux fuel bs

/-- The characters of some bytes. -/
def runes (bytes : List UInt8) : List Char := runesAux bytes.length bytes

/-- The bytes of some characters. -/
def utf8Bytes (cs : List Char) : List UInt8 := cs.flatMap String.utf8EncodeChar

/-- The bytes of a text. -/
def utf8 (text : String) : List UInt8 := utf8Bytes text.toList

lemma firstRune_encode (c : Char) (rest : List UInt8) :
    firstRune (String.utf8EncodeChar c ++ rest) = some c := by
  rw [firstRune,List.toByteArray_append]
  exact ByteArray.utf8DecodeChar?_utf8EncodeChar_append

/-- Bytes start with a character when they start with its bytes. -/
lemma firstRune_iff {bytes : List UInt8} {c : Char} :
    firstRune bytes = some c ↔ ∃ rest, bytes = String.utf8EncodeChar c ++ rest := by
  constructor
  · intro h
    obtain ⟨l,hl⟩ := ByteArray.exists_of_utf8DecodeChar?_eq_some h
    refine ⟨l.data.toList,?_⟩
    have := congrArg (fun b => b.data.toList) hl
    simpa using this
  · rintro ⟨rest,rfl⟩
    exact firstRune_encode c rest

lemma runesAux_fuel {fuel fuel' : ℕ} {bytes : List UInt8} (h : bytes.length ≤ fuel)
    (h' : bytes.length ≤ fuel') :
    runesAux fuel bytes = runesAux fuel' bytes := by
  induction fuel generalizing fuel' bytes with
  | zero =>
    obtain rfl := List.length_eq_zero_iff.mp (Nat.le_zero.mp h)
    cases fuel' with
    | zero => rfl
    | succ _ => rfl
  | succ fuel ih =>
    cases bytes with
    | nil =>
      cases fuel' with
      | zero => rfl
      | succ _ => rfl
    | cons b bs =>
      obtain ⟨fuel',rfl⟩ : ∃ n, fuel' = n+1 := ⟨fuel'-1,by rw [List.length_cons] at h'; omega⟩
      rw [List.length_cons] at h h'
      unfold runesAux
      cases hc : firstRune (b :: bs) with
      | none => exact congrArg _ (ih (by omega) (by omega))
      | some c =>
        have hpos := c.utf8Size_pos
        have hlen : ((b :: bs).drop c.utf8Size).length ≤ bs.length := by
          rw [List.length_drop,List.length_cons]
          omega
        exact congrArg _ (ih (by omega) (by omega))

@[simp] lemma runes_nil : runes [] = [] := rfl

lemma runes_encode (c : Char) (rest : List UInt8) :
    runes (String.utf8EncodeChar c ++ rest) = c :: runes rest := by
  have hlen := String.length_utf8EncodeChar c
  have hpos := c.utf8Size_pos
  cases hb : String.utf8EncodeChar c ++ rest with
  | nil =>
    have := congrArg List.length hb
    rw [List.length_append,List.length_nil] at this
    omega
  | cons b bs =>
    have hc : firstRune (b :: bs) = some c := firstRune_iff.mpr ⟨rest,hb.symm⟩
    have hdrop : (b :: bs).drop c.utf8Size = rest := by rw [← hb,← hlen,List.drop_left]
    have hsize : bs.length+1 = c.utf8Size+rest.length := by
      have := congrArg List.length hb
      rw [List.length_append,List.length_cons] at this
      omega
    rw [runes,List.length_cons,runesAux,hc]
    dsimp only
    rw [hdrop,runesAux_fuel (by omega) le_rfl]
    rfl

lemma runes_none {b : UInt8} {bs : List UInt8} (h : firstRune (b :: bs) = none) :
    runes (b :: bs) = '\uFFFD' :: runes bs := by
  rw [runes,List.length_cons,runesAux,h]
  rfl

/-- What was written is read again. -/
theorem runes_utf8Bytes (cs : List Char) : runes (utf8Bytes cs) = cs := by
  induction cs with
  | nil => rfl
  | cons c cs ih =>
    rw [utf8Bytes,List.flatMap_cons,runes_encode]
    exact congrArg _ ih

/-- Bytes that start with a whole character do not end one before them. -/
lemma firstRune_append {a d : List UInt8} (ha : a ≠ []) (hd : ∀ x ∈ d.head?, x.IsUTF8FirstByte) :
    firstRune (a ++ d) = firstRune a := by
  cases hc : firstRune a with
  | some c =>
    obtain ⟨rest,rfl⟩ := firstRune_iff.mp hc
    rw [List.append_assoc]
    exact firstRune_encode c _
  | none =>
    cases hc' : firstRune (a ++ d) with
    | none => rfl
    | some c =>
      obtain ⟨rest,hrest⟩ := firstRune_iff.mp hc'
      obtain ⟨p,hp,rfl⟩ | ⟨p,hp,-⟩ := List.append_eq_append_iff.mp hrest
      · cases p with
        | nil =>
          rw [List.append_nil] at hp
          rw [← hp,← List.append_nil (String.utf8EncodeChar c),firstRune_encode] at hc
          cases hc
        | cons x p =>
          have hlt : a.length < (String.utf8EncodeChar c).length := by
            rw [hp,List.length_append,List.length_cons]
            omega
          have hx : (String.utf8EncodeChar c)[a.length] = x := by
            simp only [hp]
            rw [List.getElem_append_right le_rfl]
            simp
          have hfirst := hd x rfl
          rw [← hx,UInt8.isUTF8FirstByte_getElem_utf8EncodeChar] at hfirst
          exact (ha (List.length_eq_zero_iff.mp hfirst)).elim
      · rw [firstRune_iff.mpr ⟨p,hp⟩] at hc
        cases hc

/-- Bytes are read part by part when the second part starts with a whole character. -/
theorem runes_append {a d : List UInt8} (hd : ∀ x ∈ d.head?, x.IsUTF8FirstByte) :
    runes (a ++ d) = runes a ++ runes d := by
  induction hn : a.length using Nat.strong_induction_on generalizing a with
  | _ n ih =>
    subst hn
    cases a with
    | nil => rfl
    | cons b bs =>
      have hfirst := firstRune_append (List.cons_ne_nil b bs) hd
      cases hc : firstRune (b :: bs) with
      | none =>
        rw [hc,List.cons_append] at hfirst
        rw [runes_none hc,List.cons_append,runes_none hfirst,ih bs.length (by simp) rfl]
        rfl
      | some c =>
        obtain ⟨rest,hrest⟩ := firstRune_iff.mp hc
        have hlen : rest.length < (b :: bs).length := by
          have := c.utf8Size_pos
          rw [hrest,List.length_append,String.length_utf8EncodeChar]
          omega
        rw [hrest,List.append_assoc,runes_encode,runes_encode,ih rest.length hlen rfl]
        rfl

end Manvi.Encoding
