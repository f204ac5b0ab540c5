import Manvi.Encoding.JsonRoundTrip
import Manvi.Encoding.ShapeOrder
import Manvi.Encoding.Utf8

/-! Strict decoding: one value, no name twice under case folding, no unknown field. -/
namespace Manvi.Workflow
open Manvi.Encoding

/-- The upper case of a letter from a to z. -/
def upper (c : Char) : Char := if 'a' ≤ c ∧ c ≤ 'z' then Char.ofNat (c.toNat-32) else c

/-- unicode.SimpleFold: of the characters that are equal under simple case folding, the next one, or
else the least. -/
structure CaseFolding where
  alike : Char → Char → Prop
  equivalence : Equivalence alike
  simpleFold : Char → Char
  alike_simpleFold : ∀ r, alike r (simpleFold r)
  next : ∀ r s, alike r s → r < s → r < simpleFold r ∧ simpleFold r ≤ s
  wraps : ∀ r s, simpleFold r ≤ r → alike r s → simpleFold r ≤ s
  ascii : ∀ c s, c.toNat < 128 → alike c (upper c) ∧ (alike c s → upper c ≤ s)

namespace CaseFolding
variable (U : CaseFolding)

/-- The least character that is equal under folding, found by going on until the next one is not
greater. -/
def foldRune : ℕ → Char → Char
  | 0,r => r
  | fuel+1,r => if U.simpleFold r ≤ r then U.simpleFold r else foldRune fuel (U.simpleFold r)

/-- How encoding/json folds the names of fields and members. -/
def foldName (s : String) : String :=
  String.ofList (s.toList.map (fun c => if c.toNat < 128 then upper c else U.foldRune 0x110000 c))

/-- The least of the characters from one on until the first comes back. -/
def lowest (r : Char) : ℕ → Char → Char → Char
  | 0,_,low => low
  | fuel+1,f,low => if f = r then low else lowest r fuel (U.simpleFold f) (if f < low then
    f else low)

/-- How names are compared for duplicates. -/
def foldKey (s : String) : String :=
  String.ofList (s.toList.map (fun r => U.lowest r 0x220000 (U.simpleFold r) r))

end CaseFolding

def maxArtifactBytes : ℕ := 1048576

def maxNesting : ℕ := 48

section unique
variable (U : CaseFolding)

mutual
def uniqueJSON : Json → ℕ → Except String Unit
  | .obj ms,depth =>
    if maxNesting < depth then .error "JSON nesting exceeds 48" else uniqueMembers ms depth []
  | .arr items,depth =>
    if maxNesting < depth then .error "JSON nesting exceeds 48" else uniqueItems items depth
  | _,depth => if maxNesting < depth then .error "JSON nesting exceeds 48" else .ok ()

def uniqueItems : List Json → ℕ → Except String Unit
  | [],_ => .ok ()
  | j :: js,depth => do
    uniqueJSON j (depth+1)
    uniqueItems js depth

/-- The members of an object; the names before by what they fold to. -/
def uniqueMembers : List (String × Json) → ℕ → List (String × String) → Except String Unit
  | [],_,_ => .ok ()
  | (s,j) :: ms,depth,seen => match seen.find? (fun e => e.1 = U.foldKey s) with
    | some first =>
      if first.2 = s then .error s!"duplicate JSON key {repr s}"
      else .error s!"duplicate JSON key: {repr first.2} and {repr s} name the same field"
    | none => do
      uniqueJSON j (depth+1)
      uniqueMembers ms depth ((U.foldKey s,s) :: seen)
end

end unique

/-- Decode a document into a type; the text of what encoding/json refuses is left out. -/
def decodeStrict (U : CaseFolding) (codec : FloatCodec) (types : Types) (destination : Shape)
    (raw : List UInt8) :
    Except String Val :=
  if raw = [] ∨ maxArtifactBytes < raw.length then .error "document is empty or exceeds 1 MiB"
  else match Json.parse (runes raw) with
    | none => .error "invalid JSON"
    | some j => do
      uniqueJSON U j 0
      match decode U.foldName codec types j destination with
      | none => .error "json: cannot unmarshal"
      | some v => .ok v

namespace CaseFolding
variable {U : CaseFolding} {r f low m s : Char} {fuel : ℕ}

/-- The least character that is equal to one under folding. -/
def Least (U : CaseFolding) (r m : Char) : Prop := U.alike r m ∧ ∀ s, U.alike r s → m ≤ s

lemma Least.eq {m' : Char} (h : U.Least r m) (h' : U.Least r m') : m = m' :=
    le_antisymm (h.2 m' h'.1) (h'.2 m h.1)

lemma Least.of_alike (h : U.Least f m) (hf : U.alike r f) : U.Least r m :=
  ⟨U.equivalence.trans hf h.1,fun s hs => h.2 s (U.equivalence.trans (U.equivalence.symm hf) hs)⟩

lemma least_of_le (h : U.simpleFold r ≤ r) : U.Least r (U.simpleFold r) :=
  ⟨U.alike_simpleFold r,fun s hs => U.wraps r s h hs⟩

lemma toNat_lt (c : Char) : c.toNat < 0x110000 := by
  have h := c.valid
  simp only [UInt32.isValidChar,Nat.isValidChar] at h
  have : c.toNat = c.val.toNat := rfl
  omega

lemma toNat_lt_toNat (h : r < s) : r.toNat < s.toNat := h

lemma least_foldRune (h : 0x110000 ≤ r.toNat+fuel) : U.Least r (U.foldRune fuel r) := by
  induction fuel generalizing r with
  | zero =>
    have := toNat_lt r
    omega
  | succ fuel ih =>
    rw [foldRune]
    split_ifs with hle
    · exact least_of_le hle
    · have hlt := toNat_lt_toNat (not_le.mp hle)
      exact (ih (by omega)).of_alike (U.alike_simpleFold r)

/-- Up to the first character, the least is the one the way started from. -/
lemma lowest_below (hf : U.alike f r) (hle : f ≤ r) (hfuel : r.toNat < f.toNat+fuel) :
    U.lowest r fuel f low = if f = r then low else if f < low then f else low := by
  induction fuel generalizing f low with
  | zero =>
    have hle : f.toNat ≤ r.toNat := hle
    omega
  | succ fuel ih =>
    rw [lowest]
    by_cases hfr : f = r
    · rw [if_pos hfr,if_pos hfr]
    · rw [if_neg hfr,if_neg hfr]
      have hlt : f < r := lt_of_le_of_ne hle hfr
      obtain ⟨hup,hup'⟩ := U.next f r hf hlt
      have hnat := toNat_lt_toNat hup
      rw [ih (U.equivalence.trans (U.equivalence.symm (U.alike_simpleFold f)) hf) hup' (by omega)]
      have hnot : ¬ U.simpleFold f < (if f < low then f else low) := by
        split_ifs with h
        · exact not_lt.mpr hup.le
        · exact not_lt.mpr ((not_lt.mp h).trans hup.le)
      rw [if_neg hnot,ite_self]

lemma lowest_least (hm : U.Least r m) (hfuel : r.toNat < m.toNat+fuel) :
    U.lowest r fuel m r = m := by
  have hle : m ≤ r := hm.2 r (U.equivalence.refl r)
  rw [lowest_below (U.equivalence.symm hm.1) hle hfuel]
  split_ifs with h h'
  · exact h.symm
  · rfl
  · exact (lt_of_le_of_ne hle h |> h').elim

/-- Above the first character, nothing is less until the way comes round. -/
lemma lowest_above (hf : U.alike r f) (hlt : r < f) (hfuel : 0x110000+0x110000 ≤ f.toNat+fuel) :
    U.Least r (U.lowest r fuel f r) := by
  induction fuel generalizing f with
  | zero =>
    have := toNat_lt f
    omega
  | succ fuel ih =>
    rw [lowest,if_neg hlt.ne',if_neg (not_lt.mpr hlt.le)]
    by_cases hle : U.simpleFold f ≤ f
    · have hm : U.Least r (U.simpleFold f) := (least_of_le hle).of_alike hf
      rw [lowest_least hm]
      · exact hm
      · have := toNat_lt r
        have := toNat_lt f
        omega
    · have hup := not_le.mp hle
      have hnat := toNat_lt_toNat hup
      exact ih (U.equivalence.trans hf (U.alike_simpleFold f)) (hlt.trans hup) (by omega)

lemma least_lowest (r : Char) : U.Least r (U.lowest r 0x220000 (U.simpleFold r) r) := by
  by_cases hle : U.simpleFold r ≤ r
  · rw [lowest_least (least_of_le hle)]
    · exact least_of_le hle
    · have := toNat_lt r
      omega
  · exact lowest_above (U.alike_simpleFold r) (not_le.mp hle) (by omega)

/-- Names are compared for duplicates as encoding/json compares them for fields. -/
theorem foldKey_eq_foldName (s : String) : U.foldKey s = U.foldName s := by
  unfold foldKey foldName
  congr 1
  refine List.map_congr_left (fun c _ => ?_)
  refine (least_lowest c).eq ?_
  split_ifs with h
  · exact ⟨(U.ascii c c h).1,fun s => (U.ascii c s h).2⟩
  · exact least_foldRune (by omega)

end CaseFolding

section unique
variable {U : CaseFolding}

/-- A document that starts so many levels down has no level too deep and no name twice. -/
def Unique (U : CaseFolding) (j : Json) (depth : ℕ) : Prop :=
  (∀ n i, Inside n i j → depth+n ≤ maxNesting) ∧ Distinct U.foldKey j

lemma Unique.depth {j : Json} {depth : ℕ} (h : Unique U j depth) : depth ≤ maxNesting :=
    h.1 0 j (.here j)

lemma unique_leaf {j : Json} {depth : ℕ} (hobj : ∀ ms, j ≠ .obj ms)
    (hleaf : ∀ n i, Inside n i j → n = 0 ∧ i = j) :
    Unique U j depth ↔ depth ≤ maxNesting := by
  refine ⟨Unique.depth,fun h => ⟨fun n i hw => ?_,fun n ms hw => ?_⟩⟩
  · obtain ⟨rfl,-⟩ := hleaf n i hw
    exact h
  · obtain ⟨-,he⟩ := hleaf n _ hw
    exact (hobj ms he.symm).elim

lemma unique_arr {items : List Json} {depth : ℕ} :
    Unique U (.arr items) depth ↔ depth ≤ maxNesting ∧ ∀ j ∈ items, Unique U j (depth+1) := by
  constructor
  · intro h
    refine ⟨h.depth,fun j hj => ⟨fun n i hw => ?_,fun n ms hw => h.2 _ ms (.item hj hw)⟩⟩
    have := h.1 _ i (.item hj hw)
    omega
  · rintro ⟨hdepth,hitems⟩
    refine ⟨fun n i hw => ?_,fun n ms hw => ?_⟩
    · cases hw with
      | here => exact hdepth
      | item hj hw =>
        have := (hitems _ hj).1 _ i hw
        omega
    · cases hw with
      | item hj hw => exact (hitems _ hj).2 _ ms hw

lemma unique_obj {ms : List (String × Json)} {depth : ℕ} :
    Unique U (.obj ms) depth ↔ depth ≤ maxNesting ∧ (ms.map (fun m => U.foldKey m.1)).Nodup ∧
      ∀ m ∈ ms, Unique U m.2 (depth+1) := by
  constructor
  · intro h
    refine ⟨h.depth,h.2 0 ms (.here _),
      fun m hm => ⟨fun n i hw => ?_,fun n ms' hw => h.2 _ ms' (.member hm hw)⟩⟩
    have := h.1 _ i (.member hm hw)
    omega
  · rintro ⟨hdepth,hnodup,hms⟩
    refine ⟨fun n i hw => ?_,fun n ms' hw => ?_⟩
    · cases hw with
      | here => exact hdepth
      | member hj hw =>
        have := (hms _ hj).1 _ i hw
        omega
    · cases hw with
      | here => exact hnodup
      | member hj hw => exact (hms _ hj).2 _ ms' hw

lemma leaf_inside {j : Json} (harr : ∀ items, j ≠ .arr items) (hobj : ∀ ms, j ≠ .obj ms) :
    ∀ n i, Inside n i j → n = 0 ∧ i = j := by
  intro n i hw
  cases hw with
  | here => exact ⟨rfl,rfl⟩
  | item => exact (harr _ rfl).elim
  | member => exact (hobj _ rfl).elim

lemma guard_ok {b : Prop} [Decidable b] {text : String} {r : Except String Unit} :
    (if b then .error text else r) = .ok () ↔ ¬b ∧ r = .ok () := by
  split_ifs with h
  · exact ⟨fun he => (by cases he),fun he => (he.1 h).elim⟩
  · exact ⟨fun he => ⟨h,he⟩,fun he => he.2⟩

lemma seq_ok {p q : Except String Unit} : (do p; q) = .ok () ↔ p = .ok () ∧ q = .ok () := by
  cases p with
  | error e => exact ⟨fun h => (by cases h),fun h => (by cases h.1)⟩
  | ok u => exact ⟨fun h => ⟨rfl,h⟩,fun h => h.2⟩

mutual
/-- The check accepts exactly the documents that are nowhere too deep and have no name twice. -/
theorem uniqueJSON_iff : ∀ (j : Json) (depth : ℕ), uniqueJSON U j depth = .ok () ↔ Unique U j depth
  | .obj ms,depth => by
    rw [uniqueJSON,guard_ok,not_lt,uniqueMembers_iff ms depth [],unique_obj]
    simp
  | .arr items,depth => by
    rw [uniqueJSON,guard_ok,not_lt,uniqueItems_iff items depth,unique_arr]
  | .null,depth | .bool _,depth | .num _,depth | .str _,depth => by
    rw [uniqueJSON,guard_ok,not_lt,unique_leaf (by simp) (leaf_inside (by simp) (by simp))]
    all_goals simp

theorem uniqueItems_iff : ∀ (items : List Json) (depth : ℕ),
    uniqueItems U items depth = .ok () ↔ ∀ j ∈ items, Unique U j (depth+1)
  | [],depth => by
    rw [uniqueItems]
    simp
  | j :: js,depth => by
    rw [uniqueItems,seq_ok,uniqueJSON_iff j (depth+1),uniqueItems_iff js depth,List.forall_mem_cons]

theorem uniqueMembers_iff :
    ∀ (ms : List (String × Json)) (depth : ℕ) (seen : List (String × String)),
    uniqueMembers U ms depth seen = .ok () ↔ (ms.map (fun m => U.foldKey m.1)).Nodup ∧
      (∀ m ∈ ms, U.foldKey m.1 ∉ seen.map Prod.fst) ∧ ∀ m ∈ ms, Unique U m.2 (depth+1)
  | [],depth,seen => by
    rw [uniqueMembers]
    simp
  | (s,j) :: ms,depth,seen => by
    rw [uniqueMembers]
    cases hfind : seen.find? (fun e => e.1 = U.foldKey s) with
    | some first =>
      have hmem : U.foldKey s ∈ seen.map Prod.fst := by
        have hname := List.find?_some hfind
        rw [decide_eq_true_iff] at hname
        exact hname ▸ List.mem_map_of_mem (List.mem_of_find?_eq_some hfind)
      constructor
      · intro h
        dsimp only at h
        split_ifs at h
      · intro h
        exact (h.2.1 (s,j) List.mem_cons_self hmem).elim
    | none =>
      have hnot : U.foldKey s ∉ seen.map Prod.fst := by
        intro hmem
        obtain ⟨e,he,hname⟩ := List.mem_map.mp hmem
        exact List.find?_eq_none.mp hfind e he (decide_eq_true hname)
      dsimp only
      rw [seq_ok,uniqueJSON_iff j (depth+1),uniqueMembers_iff ms depth ((U.foldKey s,s) :: seen)]
      simp only [List.map_cons,List.nodup_cons,List.forall_mem_cons]
      constructor
      · rintro ⟨hj,hnodup,hseen,hms⟩
        refine ⟨⟨fun hmem => ?_,hnodup⟩,⟨hnot,fun m hm => ?_⟩,hj,hms⟩
        · obtain ⟨m,hm,hname⟩ := List.mem_map.mp hmem
          exact hseen m hm (hname ▸ List.mem_cons_self)
        · exact fun hmem => hseen m hm (List.mem_cons_of_mem _ hmem)
      · rintro ⟨⟨hfresh,hnodup⟩,⟨-,hseen⟩,hj,hms⟩
        refine ⟨hj,hnodup,fun m hm hmem => ?_,hms⟩
        obtain hname | hmem := List.mem_cons.mp hmem
        · exact hfresh (List.mem_map.mpr ⟨m,hm,hname⟩)
        · exact hseen m hm hmem
end

lemma Unique.reordered {j j' : Json} {depth : ℕ} (hu : Unique U j depth) (h : Reordered j j') :
    Unique U j' depth := by
  induction h with
  | refl => exact hu
  | tail _ hstep ih =>
    refine ⟨fun n i hw => ?_,ih.2.reorders hstep⟩
    obtain ⟨i',hi',-⟩ := hstep.inside hw
    exact ih.1 n i' hi'

end unique

section strict
variable {U : CaseFolding} {codec : FloatCodec} {types : Types} {destination : Shape}
    {raw : List UInt8}

/-- What strict decoding accepts: a document of some size whose names differ and that fits the
type. -/
lemma decodeStrict_ok {v : Val} : decodeStrict U codec types destination raw = .ok v ↔
    raw ≠ [] ∧ raw.length ≤ maxArtifactBytes ∧ ∃ j, Json.parse (runes raw) = some j ∧ Unique U j 0 ∧
      decode U.foldName codec types j destination = some v := by
  unfold decodeStrict
  split_ifs with hsize
  · refine ⟨fun h => (by cases h),fun h => ?_⟩
    obtain ⟨hne,hle,-⟩ := h
    obtain hnil | hlt := hsize
    · exact (hne hnil).elim
    · omega
  · rw [not_or,not_lt] at hsize
    cases hj : Json.parse (runes raw) with
    | none => exact ⟨fun h => (by cases h),fun ⟨_,_,j,h,_⟩ => (by cases h)⟩
    | some j =>
      dsimp only
      constructor
      · intro h
        cases hu : uniqueJSON U j 0 with
        | error e =>
          rw [hu] at h
          cases h
        | ok u =>
          rw [hu] at h
          refine ⟨hsize.1,hsize.2,j,rfl,(uniqueJSON_iff j 0).mp hu,?_⟩
          cases hv : decode U.foldName codec types j destination with
          | none =>
            simp only [hv] at h
            cases h
          | some v' =>
            simp only [hv] at h
            cases h
            rfl
      · rintro ⟨-,-,j',hj',hu,hv⟩
        cases hj'
        rw [(uniqueJSON_iff j 0).mpr hu,hv]
        rfl

lemma parse_utf8Bytes (j : Json) : Json.parse (runes (utf8Bytes (Json.encode j))) = some j := by
  rw [runes_utf8Bytes,Json.parse_encode]

/-- Two members of an object are stored in one field of a struct. -/
def OneField (fold : FoldName) (fields : List Field) (ms : List (String × Json)) : Prop :=
  ∃ pre mid post m m' i, ms = pre ++ m :: (mid ++ m' :: post) ∧
  Encoding.resolve fold fields m.1 = some i ∧
    Encoding.resolve fold fields m'.1 = some i

lemma OneField.not_nodup {fold : FoldName} {fields : List Field} {ms : List (String × Json)}
    (h : OneField fold fields ms) :
    ¬(ms.map (fun m => fold m.1)).Nodup := by
  obtain ⟨pre,mid,post,m,m',i,rfl,hm,hm'⟩ := h
  obtain ⟨f,hf,hname⟩ := resolve_fold hm
  obtain ⟨f',hf',hname'⟩ := resolve_fold hm'
  rw [hf] at hf'
  cases hf'
  intro hn
  rw [List.map_append,List.nodup_append,List.map_cons,List.nodup_cons] at hn
  refine hn.2.1.1 ?_
  rw [← hname,hname']
  exact List.mem_map_of_mem (List.mem_append_right _ List.mem_cons_self)

/-- Reordering the members of objects changes nothing, and two members for one field are refused. -/
theorem decodeStrict_unordered (U : CaseFolding) (codec : FloatCodec) (types : Types)
    (destination : Shape) :
    (∀ raw raw' j j' v, decodeStrict U codec types destination raw = .ok v →
      Json.parse (runes raw) = some j →
      Json.parse (runes raw') = some j' → Reordered j j' → raw'.length = raw.length →
      decodeStrict U codec types destination raw' = .ok v) ∧
    ∀ raw j n ms fields, Json.parse (runes raw) = some j → Inside n (.obj ms) j →
    OneField U.foldName fields ms →
      ∃ e, decodeStrict U codec types destination raw = .error e := by
  have hfold : U.foldKey = U.foldName := funext CaseFolding.foldKey_eq_foldName
  constructor
  · intro raw raw' j j' v hv hj hj' hre hsize
    obtain ⟨hne,hle,j₀,hj₀,hu,hd⟩ := decodeStrict_ok.mp hv
    rw [hj] at hj₀
    cases hj₀
    have hne' : raw' ≠ [] := by
      rintro rfl
      cases hj'
    refine decodeStrict_ok.mpr ⟨hne',hsize ▸ hle,j',hj',hu.reordered hre,?_⟩
    rw [decode_reordered (hfold ▸ hu.2) hre]
    exact hd
  · intro raw j n ms fields hj hw hone
    cases hr : decodeStrict U codec types destination raw with
    | error e => exact ⟨e,rfl⟩
    | ok v =>
      obtain ⟨-,-,j₀,hj₀,hu,-⟩ := decodeStrict_ok.mp hr
      rw [hj] at hj₀
      cases hj₀
      have hn := hu.2 n ms hw
      rw [hfold] at hn
      exact (hone.not_nodup hn).elim

end strict

section ascii

lemma toNat_ofNat {n : ℕ} (h : n < 0xd800) : (Char.ofNat n).toNat = n := by
  have hv : n.isValidChar := Or.inl h
  simp [Char.ofNat,hv,Char.toNat,Char.ofNatAux]

lemma toNat_upper (c : Char) :
    (upper c).toNat = if 97 ≤ c.toNat ∧ c.toNat ≤ 122 then c.toNat-32 else c.toNat := by
  have hlow : 'a' ≤ c ↔ 97 ≤ c.toNat := Iff.rfl
  have hhigh : c ≤ 'z' ↔ c.toNat ≤ 122 := Iff.rfl
  unfold upper
  simp only [hlow,hhigh]
  split_ifs with h
  · exact toNat_ofNat (by omega)
  · rfl

/-- The letters from A to Z and those from a to z go round in pairs. -/
def pairs (c : Char) : Char := if 'A' ≤ c ∧ c ≤ 'Z' then Char.ofNat (c.toNat+32) else upper c

lemma toNat_pairs (c : Char) : (pairs c).toNat = if 65 ≤ c.toNat ∧ c.toNat ≤ 90 then c.toNat+32
    else if 97 ≤ c.toNat ∧ c.toNat ≤ 122 then c.toNat-32 else c.toNat := by
  have hlow : 'A' ≤ c ↔ 65 ≤ c.toNat := Iff.rfl
  have hhigh : c ≤ 'Z' ↔ c.toNat ≤ 90 := Iff.rfl
  unfold pairs
  simp only [hlow,hhigh]
  split_ifs with h h'
  · exact toNat_ofNat (by omega)
  · rw [toNat_upper,if_pos h']
  · rw [toNat_upper,if_neg h']

lemma upper_eq_iff {c d : Char} : upper c = upper d ↔ (upper c).toNat = (upper d).toNat :=
  ⟨congrArg _,fun h => Char.ext (UInt32.toNat_inj.mp h)⟩

/-- Folding of the letters from A to Z alone. -/
def asciiFolding : CaseFolding where
  alike c d := upper c = upper d
  equivalence := ⟨fun _ => rfl,Eq.symm,Eq.trans⟩
  simpleFold := pairs
  alike_simpleFold r := by
    rw [upper_eq_iff,toNat_upper,toNat_upper,toNat_pairs]
    split_ifs <;> omega
  next r s hrs hlt := by
    have hlt : r.toNat < s.toNat := hlt
    rw [upper_eq_iff,toNat_upper,toNat_upper] at hrs
    have hgoal : r.toNat < (pairs r).toNat ∧ (pairs r).toNat ≤ s.toNat := by
      rw [toNat_pairs]
      split_ifs at hrs ⊢ <;> omega
    exact hgoal
  wraps r s hle hrs := by
    have hle : (pairs r).toNat ≤ r.toNat := hle
    rw [upper_eq_iff,toNat_upper,toNat_upper] at hrs
    have hgoal : (pairs r).toNat ≤ s.toNat := by
      rw [toNat_pairs] at hle ⊢
      split_ifs at hrs hle ⊢ <;> omega
    exact hgoal
  ascii c s _ := by
    refine ⟨?_,fun h => ?_⟩
    · rw [upper_eq_iff]
      simp only [toNat_upper]
      split_ifs <;> omega
    · rw [upper_eq_iff,toNat_upper,toNat_upper] at h
      have hgoal : (upper c).toNat ≤ s.toNat := by
        rw [toNat_upper]
        split_ifs at h ⊢ <;> omega
      exact hgoal

/-- A codec that takes no number but 0. -/
def zeroCodec : FloatCodec where
  parse n := if n = ⟨false,0,[],none⟩ then some 0 else none
  format _ := ⟨false,0,[],none⟩
  parse_zero := rfl
  parse_format n x h := by
    split_ifs at h
    exact h

end ascii

/-- A record with a name and some tags. -/
def named : Types := fun _ => [⟨"id",false,.str⟩,⟨"tags",false,.list .str⟩]

/-- A reordered record is read alike, and one with its name twice is refused. -/
theorem decodeStrict_unordered_named :
    decodeStrict asciiFolding zeroCodec named (.struct 0)
    (utf8Bytes (Json.encode (.obj [("tags",.arr []),("id",.str "a")]))) =
      .ok (.struct [(0,.str "a"),(1,.list [])]) ∧
    ∃ e, decodeStrict asciiFolding zeroCodec named (.struct 0)
      (utf8Bytes (Json.encode (.obj [("id",.str "a"),("ID",.str "b")]))) = .error e := by
  have h := decodeStrict_unordered asciiFolding zeroCodec named (.struct 0)
  refine ⟨h.1 (utf8Bytes (Json.encode (.obj [("id",.str "a"),("tags",.arr [])]))) _ _ _ _ ?_
    (parse_utf8Bytes _) (parse_utf8Bytes _)
    (.single (.members (.swap _ _ _))) ?_,h.2 _ _ 0 _ (named 0) (parse_utf8Bytes _) (.here _) ?_⟩
  · refine decodeStrict_ok.mpr ⟨?_,?_,_,parse_utf8Bytes _,?_,?_⟩
    · decide
    · decide
    · exact (uniqueJSON_iff _ _).mp (by decide)
    · rfl
  · decide
  · exact ⟨[],[],[],("id",.str "a"),("ID",.str "b"),0,rfl,by decide,by decide⟩

end Manvi.Workflow
