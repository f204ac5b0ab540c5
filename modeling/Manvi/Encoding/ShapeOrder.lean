import Manvi.Encoding.Shape

/-! The order of the members of an object does not show in what a document is decoded to. -/
namespace Manvi.Encoding

/-- Reorder the members of one object in a document. -/
inductive Reorders : Json → Json → Prop
  | members {ms ms' : List (String × Json)} (h : ms.Perm ms') : Reorders (.obj ms) (.obj ms')
  | item {pre post : List Json} {j j' : Json} (h : Reorders j j') :
      Reorders (.arr (pre ++ j :: post)) (.arr (pre ++ j' :: post))
  | member {pre post : List (String × Json)} {k : String} {j j' : Json} (h : Reorders j j') :
      Reorders (.obj (pre ++ (k,j) :: post)) (.obj (pre ++ (k,j') :: post))

/-- Reorder the members of any objects in a document. -/
def Reordered : Json → Json → Prop := Relation.ReflTransGen Reorders

/-- A document inside another, so many levels down. -/
inductive Inside : ℕ → Json → Json → Prop
  | here (j : Json) : Inside 0 j j
  | item {n : ℕ} {i j : Json} {items : List Json} (hj : j ∈ items) (h : Inside n i j) :
      Inside (n+1) i (.arr items)
  | member {n : ℕ} {i j : Json} {k : String} {ms : List (String × Json)} (hj : (k,j) ∈ ms)
      (h : Inside n i j) :
      Inside (n+1) i (.obj ms)

/-- No two members of one object have names that fold to the same. -/
def Distinct (fold : FoldName) (j : Json) : Prop :=
  ∀ n ms, Inside n (.obj ms) j → (ms.map (fun m => fold m.1)).Nodup

/-- If one document is an object, so is the other, with the same names. -/
def SameNames (i j : Json) : Prop :=
  ∀ ms, j = .obj ms → ∃ ms', i = .obj ms' ∧ (ms'.map Prod.fst).Perm (ms.map Prod.fst)

lemma SameNames.refl (j : Json) : SameNames j j := fun ms hms => ⟨ms,hms,.refl _⟩

/-- What is inside a reordered document was inside it before, on the same level. -/
lemma Reorders.inside {j j' i' : Json} {n : ℕ} (h : Reorders j j') (hw : Inside n i' j') :
    ∃ i, Inside n i j ∧ SameNames i i' := by
  induction h generalizing n with
  | @members ms ms' h =>
    cases hw with
    | here =>
      refine ⟨_,.here _,?_⟩
      intro ms'' he
      cases he
      exact ⟨ms,rfl,h.map _⟩
    | member hj hw => exact ⟨_,.member (h.mem_iff.mpr hj) hw,.refl _⟩
  | @item pre post j j' h ih =>
    cases hw with
    | here => exact ⟨_,.here _,fun ms he => (by cases he)⟩
    | @item n _ x _ hx hw =>
      have hmem : x ∈ pre ∨ x = j' ∨ x ∈ post := by simpa using hx
      obtain hx | rfl | hx := hmem
      · exact ⟨_,.item (List.mem_append_left _ hx) hw,.refl _⟩
      · obtain ⟨i,hi,hsame⟩ := ih hw
        exact ⟨i,.item (List.mem_append_right _ List.mem_cons_self) hi,hsame⟩
      · exact ⟨_,.item (List.mem_append_right _ (List.mem_cons_of_mem _ hx)) hw,.refl _⟩
  | @member pre post k j j' h ih =>
    cases hw with
    | here =>
      refine ⟨_,.here _,?_⟩
      intro ms he
      cases he
      exact ⟨_,rfl,by simp⟩
    | @member n _ x k' _ hx hw =>
      obtain hx | hx := List.mem_append.mp hx
      · exact ⟨_,.member (List.mem_append_left _ hx) hw,.refl _⟩
      · obtain hx | hx := List.mem_cons.mp hx
        · cases hx
          obtain ⟨i,hi,hsame⟩ := ih hw
          exact ⟨i,.member (List.mem_append_right _ List.mem_cons_self) hi,hsame⟩
        · exact ⟨_,.member (List.mem_append_right _ (List.mem_cons_of_mem _ hx)) hw,.refl _⟩

/-- Names that fold apart still do when members are reordered. -/
lemma Distinct.reorders {fold : FoldName} {j j' : Json} (hd : Distinct fold j) (h : Reorders j j') :
    Distinct fold j' := by
  intro n ms hw
  obtain ⟨i,hi,hsame⟩ := h.inside hw
  obtain ⟨ms',rfl,hperm⟩ := hsame ms rfl
  have hmap : ∀ ms : List (String × Json),
    ms.map (fun m => fold m.1) = (ms.map Prod.fst).map fold := by simp
  have hn := hd n ms' hi
  rw [hmap] at hn ⊢
  exact (hperm.map fold).nodup_iff.mp hn

section mapM
variable {α β : Type} {f g : α → Option β}

lemma mapM_perm {xs xs' : List α} (h : xs.Perm xs') {ys : List β} (hys : xs.mapM f = some ys) :
    ∃ ys', xs'.mapM f = some ys' ∧ ys.Perm ys' := by
  induction h generalizing ys with
  | nil => exact ⟨ys,hys,.refl _⟩
  | cons x _ ih =>
    rw [List.mapM_cons] at hys
    obtain ⟨y,hy,hys⟩ := Option.bind_eq_some_iff.mp hys
    obtain ⟨rest,hrest,hys⟩ := Option.bind_eq_some_iff.mp hys
    cases hys
    obtain ⟨rest',hrest',hperm⟩ := ih hrest
    refine ⟨y :: rest',?_,hperm.cons y⟩
    rw [List.mapM_cons,hy,Option.bind_eq_bind,Option.bind_some,hrest']
    rfl
  | swap x x' l =>
    rw [List.mapM_cons,List.mapM_cons] at hys
    obtain ⟨y,hy,hys⟩ := Option.bind_eq_some_iff.mp hys
    obtain ⟨rest,hrest,hys⟩ := Option.bind_eq_some_iff.mp hys
    obtain ⟨y',hy',hrest⟩ := Option.bind_eq_some_iff.mp hrest
    obtain ⟨rest',hrest',hrest⟩ := Option.bind_eq_some_iff.mp hrest
    cases hrest
    cases hys
    refine ⟨y' :: y :: rest',?_,.swap _ _ _⟩
    rw [List.mapM_cons,List.mapM_cons,hy,hy',hrest']
    rfl
  | trans _ _ ih ih' =>
    obtain ⟨ys',hys',hperm⟩ := ih hys
    obtain ⟨ys'',hys'',hperm'⟩ := ih' hys'
    exact ⟨ys'',hys'',hperm.trans hperm'⟩

lemma mapM_congr_at {pre post : List α} {x x' : α} (h : f x' = f x) :
    (pre ++ x' :: post).mapM f = (pre ++ x :: post).mapM f := by
  rw [List.mapM_append,List.mapM_append,List.mapM_cons,List.mapM_cons,h]

end mapM

section decode
variable {fold : FoldName} {codec : FloatCodec} {types : Types}

/-- What one member of a struct decodes to. -/
def decodeMember (fold : FoldName) (codec : FloatCodec) (types : Types) (fields : List Field)
    (m : String × Json) :
    Option (ℕ × Val) := do
  let i ← resolve fold fields m.1
  let f ← fields[i]?
  let v ← decode fold codec types m.2 f.shape
  return (i,v)

lemma decodeItems_eq (items : List Json) (e : Shape) :
    decodeItems fold codec types items e = items.mapM (fun j => decode fold codec types j e) := by
  induction items with
  | nil => rfl
  | cons j js ih => rw [decodeItems,ih,List.mapM_cons]

lemma decodeEntries_eq (ms : List (String × Json)) (e : Shape) :
    decodeEntries fold codec types ms e =
    ms.mapM (fun m => (decode fold codec types m.2 e).map (fun v => (m.1,v))) := by
  induction ms with
  | nil => rfl
  | cons m ms ih =>
    obtain ⟨k,j⟩ := m
    rw [decodeEntries,ih,List.mapM_cons]
    cases decode fold codec types j e with
    | none => rfl
    | some v => rfl

lemma decodeMembers_eq (ms : List (String × Json)) (fields : List Field) :
    decodeMembers fold codec types ms fields = ms.mapM (decodeMember fold codec types fields) := by
  induction ms with
  | nil => rfl
  | cons m ms ih =>
    obtain ⟨k,j⟩ := m
    rw [decodeMembers,ih,List.mapM_cons,decodeMember]
    cases resolve fold fields k with
    | none => rfl
    | some i =>
      dsimp only [Option.bind_eq_bind,Option.bind_some]
      cases fields[i]? with
      | none => rfl
      | some f =>
        dsimp only [Option.bind_some]
        cases decode fold codec types j f.shape with
        | none => rfl
        | some v => rfl

/-- The field that a member is stored in has a name that folds to the member's. -/
lemma resolve_fold {fields : List Field} {k : String} {i : ℕ} (h : resolve fold fields k = some i) :
    ∃ f, fields[i]? = some f ∧ fold f.name = fold k := by
  unfold resolve at h
  obtain h | ⟨-,h⟩ := Option.or_eq_some_iff.mp h
  · obtain ⟨hlt,hp,-⟩ := List.findIdx?_eq_some_iff_getElem.mp h
    exact ⟨_,List.getElem?_eq_getElem hlt,by simpa using congrArg fold (by simpa using hp)⟩
  · obtain ⟨hlt,hp,-⟩ := List.findIdx?_eq_some_iff_getElem.mp h
    exact ⟨_,List.getElem?_eq_getElem hlt,by simpa using hp⟩

lemma mapM_entries_keys {ms : List (String × Json)} {e : Shape} {es : List (String × Val)}
    (h : ms.mapM (fun m => (decode fold codec types m.2 e).map (fun v => (m.1,v))) = some es) :
    es.map Prod.fst = ms.map Prod.fst := by
  induction ms generalizing es with
  | nil =>
    cases h
    rfl
  | cons m ms ih =>
    rw [List.mapM_cons] at h
    obtain ⟨y,hy,h⟩ := Option.bind_eq_some_iff.mp h
    obtain ⟨rest,hrest,h⟩ := Option.bind_eq_some_iff.mp h
    cases h
    obtain ⟨v,-,rfl⟩ := Option.map_eq_some_iff.mp hy
    rw [List.map_cons,ih hrest,List.map_cons]

/-- Where member names fold apart, no two are stored in one field. -/
lemma mapM_members_nodup {ms : List (String × Json)} {fields : List Field} {fs : List (ℕ × Val)}
    (hn : (ms.map (fun m => fold m.1)).Nodup)
    (h : ms.mapM (decodeMember fold codec types fields) = some fs) :
    (fs.map Prod.fst).Nodup ∧ ∀ i ∈ fs.map Prod.fst, ∃ f, fields[i]? = some f ∧
    fold f.name ∈ ms.map (fun m => fold m.1) := by
  induction ms generalizing fs with
  | nil =>
    cases h
    exact ⟨.nil,by simp⟩
  | cons m ms ih =>
    rw [List.mapM_cons] at h
    obtain ⟨y,hy,h⟩ := Option.bind_eq_some_iff.mp h
    obtain ⟨rest,hrest,h⟩ := Option.bind_eq_some_iff.mp h
    cases h
    obtain ⟨hnot,hms⟩ := List.nodup_cons.mp hn
    obtain ⟨hnodup,hfold⟩ := ih hms hrest
    unfold decodeMember at hy
    obtain ⟨i,hi,hy⟩ := Option.bind_eq_some_iff.mp hy
    obtain ⟨f,hf,hy⟩ := Option.bind_eq_some_iff.mp hy
    obtain ⟨v,-,hy⟩ := Option.bind_eq_some_iff.mp hy
    cases hy
    obtain ⟨f',hf',hname⟩ := resolve_fold hi
    rw [hf] at hf'
    cases hf'
    refine ⟨List.nodup_cons.mpr ⟨fun hmem => ?_,hnodup⟩,?_⟩
    · obtain ⟨f',hf',hin⟩ := hfold i hmem
      rw [hf] at hf'
      cases hf'
      rw [hname] at hin
      exact hnot hin
    · intro i' hi'
      obtain rfl | hi' := List.mem_cons.mp hi'
      · exact ⟨f,hf,by rw [hname]; exact List.mem_cons_self⟩
      · obtain ⟨f',hf',hin⟩ := hfold i' hi'
        exact ⟨f',hf',List.mem_cons_of_mem _ hin⟩

/-- Reordering one object decodes to the same, or is refused alike. -/
lemma decode_perm {ms ms' : List (String × Json)} (hn : (ms.map (fun m => fold m.1)).Nodup)
    (h : ms.Perm ms') (s : Shape) :
    decode fold codec types (.obj ms') s = decode fold codec types (.obj ms) s := by
  have hn' : (ms'.map (fun m => fold m.1)).Nodup := (h.map _).nodup_iff.mp hn
  have hkeys : ∀ {ms : List (String × Json)}, (ms.map (fun m => fold m.1)).Nodup →
    (ms.map Prod.fst).Nodup := by
    intro ms hms
    have hcomp : ms.map (fun m => fold m.1) = (ms.map Prod.fst).map fold := by simp
    rw [hcomp] at hms
    exact List.Nodup.of_map _ hms
  unfold decode
  cases hs : s.base with
  | map e =>
    dsimp only
    rw [decodeEntries_eq,decodeEntries_eq]
    cases hes : ms.mapM (fun m => (decode fold codec types m.2 e).map (fun v => (m.1,v))) with
    | none =>
      cases hes' : ms'.mapM (fun m => (decode fold codec types m.2 e).map (fun v => (m.1,v))) with
      | none => rfl
      | some es' =>
        obtain ⟨es,he,-⟩ := mapM_perm h.symm hes'
        rw [hes] at he
        cases he
    | some es =>
      obtain ⟨es',hes',hperm⟩ := mapM_perm h hes
      rw [hes']
      have hnodup : (es.map Prod.fst).Nodup := by
        rw [mapM_entries_keys hes]
        exact hkeys hn
      rw [Option.map_some,Option.map_some,keyed_perm hnodup hperm]
  | struct id =>
    dsimp only
    rw [decodeMembers_eq,decodeMembers_eq]
    cases hfs : ms.mapM (decodeMember fold codec types (types id)) with
    | none =>
      cases hfs' : ms'.mapM (decodeMember fold codec types (types id)) with
      | none => rfl
      | some fs' =>
        obtain ⟨fs,he,-⟩ := mapM_perm h.symm hfs'
        rw [hfs] at he
        cases he
    | some fs =>
      obtain ⟨fs',hfs',hperm⟩ := mapM_perm h hfs
      rw [hfs']
      rw [Option.map_some,Option.map_some,structOf,structOf,
        keyed_perm (mapM_members_nodup hn hfs).1 hperm]
  | _ => rfl

/-- Reordering members decodes to the same, or is refused alike. -/
theorem decode_reorders {j j' : Json} (hd : Distinct fold j) (h : Reorders j j') (s : Shape) :
    decode fold codec types j' s = decode fold codec types j s := by
  induction h generalizing s with
  | members h => exact decode_perm (hd _ _ (.here _)) h s
  | @item pre post j j' h ih =>
    have hj : Distinct fold j := fun n ms hms => hd _ ms (.item (by simp) hms)
    unfold decode
    simp only [decodeItems_eq]
    have hsame : ∀ e, (pre ++ j' :: post).mapM (fun j => decode fold codec types j e) =
        (pre ++ j :: post).mapM (fun j => decode fold codec types j e) :=
        fun e => mapM_congr_at (ih hj e)
    simp only [hsame]
  | @member pre post k j j' h ih =>
    have hj : Distinct fold j :=
      fun n ms hms => hd _ ms (.member (List.mem_append_right _ List.mem_cons_self) hms)
    unfold decode
    simp only [decodeEntries_eq,decodeMembers_eq]
    have hentries : ∀ e, (pre ++ (k,j') :: post).mapM (fun m => (decode fold codec types m.2 e).map
      (fun v => (m.1,v))) =
        (pre ++ (k,j) :: post).mapM (fun m => (decode fold codec types m.2 e).map
          (fun v => (m.1,v))) := by
      intro e
      refine mapM_congr_at ?_
      dsimp only
      rw [ih hj e]
    have hmembers : ∀ fields, (pre ++ (k,j') :: post).mapM (decodeMember fold codec types fields) =
        (pre ++ (k,j) :: post).mapM (decodeMember fold codec types fields) := by
      intro fields
      refine mapM_congr_at ?_
      unfold decodeMember
      simp only [ih hj]
    simp only [hentries,hmembers]

theorem decode_reordered {j j' : Json} (hd : Distinct fold j) (h : Reordered j j') (s : Shape) :
    decode fold codec types j' s = decode fold codec types j s := by
  have hboth : Distinct fold j' ∧ decode fold codec types j' s = decode fold codec types j s := by
    induction h with
    | refl => exact ⟨hd,rfl⟩
    | tail _ hstep ih => exact ⟨ih.1.reorders hstep,(decode_reorders ih.1 hstep s).trans ih.2⟩
  exact hboth.2

end decode
end Manvi.Encoding
