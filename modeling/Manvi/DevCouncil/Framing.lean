import Manvi.DevCouncil.Windows

/-! The unframer takes exactly the outputs that frame every object asked for, however they are cut
into writes, and what it reports is what is in the objects. -/
namespace Manvi.DevCouncil
open Manvi.Encoding

/-- An output that answers each item in turn: a line that reads as its header, its bytes within the
budget, a newline. -/
inductive Frames : List BatchItem → ℕ → Bytes → List Bytes → Prop
  | nil (budget : ℕ) : Frames [] budget [] []
  | cons {item : BatchItem} {items : List BatchItem} {budget : ℕ} {header body rest : Bytes}
      {blobs : List Bytes}
      (hline : 10 ∉ header) (hshort : header.length ≤ maxBatchHeaderBytes)
      (hread : readHeader item header = .ok body.length)
      (hbudget : body.length ≤ budget) (h : Frames items (budget-body.length) rest blobs) :
      Frames (item :: items) budget (header ++ 10 :: (body ++ 10 :: rest)) (body :: blobs)

/-- The hits are the leaks of the objects that were read, and of what was seen of the current
one. -/
structure Reports (cfg : ScanConfig) (secrets : List Bytes) (items : List BatchItem)
    (past : List Bytes) (label : String)
    (seen : Bytes) (hits : List Hit) : Prop where
  sound : ∀ hit ∈ hits, (∃ (i : ℕ) (item : BatchItem) (blob : Bytes), items[i]? = some item ∧
    past[i]? = some blob ∧ hit.1 = item.label ∧
    Leak cfg.values secrets hit.2 blob) ∨ (hit.1 = label ∧ Leak cfg.values secrets hit.2 seen)
  full : ∀ (i : ℕ) (item : BatchItem) (blob : Bytes) (reason : String), items[i]? = some item →
    past[i]? = some blob → Leak cfg.values secrets reason blob →
    (item.label,reason) ∈ hits

/-- Where the reader stands: in a header line, in the bytes of an object, or before the newline
behind them. -/
inductive Tracks (cfg : ScanConfig) (secrets : List Bytes) (items : List BatchItem) (budget : ℕ)
    (b : BatchReader)
    (past : List Bytes) (seen : Bytes) : Prop
  | header (hitems : b.items = items) (hbudget : b.budget = budget) (htotal : b.total ≤ budget)
      (herr : b.err = none)
      (hcur : b.cur = none) (hnl : b.needNL = false) (hnext : b.next = past.length)
      (hline : 10 ∉ b.hdr) (hshort : b.hdr.length ≤ maxBatchHeaderBytes)
      (hpast : past.length ≤ items.length) (hreports : Reports cfg secrets items past "" [] b.hits)
  | body (hitems : b.items = items) (hbudget : b.budget = budget) (htotal : b.total ≤ budget)
      (herr : b.err = none)
      {sink : WindowSink} {item : BatchItem}
      (hcur : b.cur = some sink) (hnl : b.needNL = false) (hhdr : b.hdr = [])
      (hnext : b.next = past.length+1)
      (hitem : items[past.length]? = some item) (hlabel : sink.label = item.label)
      (hremain : 0 < b.remain)
      (hsees : sink.Sees cfg secrets seen b.hits)
      (hreports : Reports cfg secrets items past item.label seen b.hits)
  | newline (hitems : b.items = items) (hbudget : b.budget = budget) (htotal : b.total ≤ budget)
      (herr : b.err = none)
      (hcur : b.cur = none) (hnl : b.needNL = true) (hhdr : b.hdr = [])
      (hnext : b.next = past.length)
      (hpast : past.length ≤ items.length) (hreports : Reports cfg secrets items past "" [] b.hits)

/-- What still has to come for the reader to end well, and the objects it has read then. -/
def Expects (items : List BatchItem) (budget : ℕ) (b : BatchReader) (past : List Bytes)
    (seen rest : Bytes) (blobs : List Bytes) :
    Prop :=
  if b.cur.isSome then ∃ body tail future, rest = body ++ 10 :: tail ∧ body.length = b.remain ∧
    b.total+b.remain ≤ budget ∧
    Frames (items.drop (past.length+1)) (budget-(b.total+b.remain)) tail future ∧
    blobs = past ++ (seen ++ body) :: future
  else if b.needNL then ∃ tail future, rest = 10 :: tail ∧ b.total ≤ budget ∧
    Frames (items.drop past.length) (budget-b.total) tail future ∧ blobs = past ++ future
  else ∃ future, b.total ≤ budget ∧ Frames (items.drop past.length) (budget-b.total) (b.hdr ++
    rest) future ∧ blobs = past ++ future

section frames
variable {items : List BatchItem} {budget : ℕ} {out : Bytes} {blobs : List Bytes}

/-- Two texts that end their first line at the same line end are the same. -/
lemma line_inj {a b x y : Bytes} (ha : (10 : UInt8) ∉ a) (hb : (10 : UInt8) ∉ b)
    (h : a ++ 10 :: x = b ++ 10 :: y) :
    a = b ∧ x = y := by
  induction a generalizing b with
  | nil =>
    cases b with
    | nil => exact ⟨rfl,(List.cons.inj h).2⟩
    | cons c b =>
      have hc := (List.cons.inj h).1
      exact absurd (List.mem_cons.mpr (.inl hc)) hb
  | cons c a ih =>
    cases b with
    | nil =>
      have hc := (List.cons.inj h).1
      exact absurd (List.mem_cons.mpr (.inl hc.symm)) ha
    | cons d b =>
      obtain ⟨hcd,htail⟩ := List.cons.inj h
      rw [List.mem_cons,not_or] at ha hb
      obtain ⟨hab,hxy⟩ := ih ha.2 hb.2 htail
      exact ⟨by rw [hcd,hab],hxy⟩

/-- The first line end is behind the line. -/
lemma idxOf?_line {line tail : Bytes} (h : (10 : UInt8) ∉ line) :
    (line ++ 10 :: tail).idxOf? 10 = some line.length := by
  induction line with
  | nil => simp [List.idxOf?_cons]
  | cons c line ih =>
    rw [List.mem_cons,not_or] at h
    rw [List.cons_append,List.idxOf?_cons,ih h.2]
    simp [Ne.symm h.1]

/-- What begins with a line is framed only if that line is the header of the next item. -/
lemma frames_line_iff {line rest : Bytes} (hline : (10 : UInt8) ∉ line) :
    Frames items budget (line ++ 10 :: rest) blobs ↔ line.length ≤ maxBatchHeaderBytes ∧
      ∃ item later body tail future, items = item :: later ∧
      readHeader item line = .ok body.length ∧ rest = body ++ 10 :: tail ∧
        body.length ≤ budget ∧ Frames later (budget-body.length) tail future ∧
        blobs = body :: future := by
  refine ⟨?_,?_⟩
  · intro h
    generalize hout : line ++ 10 :: rest = out at h
    cases h with
    | nil => simp at hout
    | cons hl hshort hread hbudget h =>
      obtain ⟨rfl,rfl⟩ := line_inj hline hl hout
      exact ⟨hshort,_,_,_,_,_,rfl,hread,rfl,hbudget,h,rfl⟩
  · rintro ⟨hshort,item,later,body,tail,future,rfl,hread,rfl,hbudget,h,rfl⟩
    exact .cons hline hshort hread hbudget h

/-- An empty output answers no item. -/
lemma frames_nil (h : Frames items budget [] blobs) : items = [] ∧ blobs = [] := by
  generalize hout : ([] : Bytes) = out at h
  cases h with
  | nil => exact ⟨rfl,rfl⟩
  | cons => simp at hout

/-- Something that is not a whole line is not framed. -/
lemma not_frames_of_notMem {part : Bytes} (hne : part ≠ []) (hline : (10 : UInt8) ∉ part) :
    ¬ Frames items budget part blobs := by
  intro h
  cases h with
  | nil => exact hne rfl
  | cons => exact hline (List.mem_append_right _ List.mem_cons_self)

/-- A header that has grown too long is not framed, whatever follows. -/
lemma not_frames_of_long {part more : Bytes} (hline : (10 : UInt8) ∉ part)
    (hlong : maxBatchHeaderBytes < part.length) :
    ¬ Frames items budget (part ++ more) blobs := by
  by_cases hmore : (10 : UInt8) ∈ more
  · obtain ⟨a,b,rfl,ha⟩ := List.eq_append_cons_of_mem hmore
    have hnot : (10 : UInt8) ∉ part ++ a := by
      rw [List.mem_append,not_or]
      exact ⟨hline,ha⟩
    rw [← List.append_assoc,frames_line_iff hnot,List.length_append]
    intro h
    have hshort := h.1
    omega
  · apply not_frames_of_notMem
    · intro hnil
      rw [List.append_eq_nil_iff] at hnil
      rw [hnil.1] at hlong
      cases hlong
    · rw [List.mem_append,not_or]
      exact ⟨hline,hmore⟩

end frames

section turns
variable {cfg : ScanConfig} {secrets : List Bytes} {items : List BatchItem} {budget : ℕ}
    {b : BatchReader} {past : List Bytes}
  {seen rest : Bytes}

/-- What one round comes to: it fails where nothing could have ended well, or it goes on with fewer
bytes. -/
def Advances (cfg : ScanConfig) (secrets : List Bytes) (items : List BatchItem) (budget : ℕ)
    (b : BatchReader) (past : List Bytes)
    (seen rest : Bytes) (b' : BatchReader) (rest' : Bytes) : Prop :=
  (b'.err ≠ none ∧ ∀ more blobs, ¬ Expects items budget b past seen (rest ++ more) blobs) ∨
  ∃ past' seen', Tracks cfg secrets items budget b' past' seen' ∧ rest'.length < rest.length ∧
    ∀ more blobs, Expects items budget b past seen (rest ++ more) blobs ↔
    Expects items budget b' past' seen' (rest' ++ more) blobs

lemma err_fail (fault : ScanFault) : (b.fail fault).err ≠ none := by
  unfold BatchReader.fail
  split_ifs with h
  · exact Option.some_ne_none fault
  · exact h

/-- A finished object joins those that were read. -/
lemma Reports.finish {item : BatchItem} {blob : Bytes} {hits : List Hit}
    (h : Reports cfg secrets items past item.label blob hits)
    (hitem : items[past.length]? = some item)
    (hfull : ∀ reason, Leak cfg.values secrets reason blob → (item.label,reason) ∈ hits) :
    Reports cfg secrets items (past ++ [blob]) "" [] hits := by
  refine ⟨?_,?_⟩
  · intro hit hmem
    left
    cases h.sound hit hmem with
    | inl hold =>
      obtain ⟨i,it,bl,hi,hp,hlabel,hleak⟩ := hold
      refine ⟨i,it,bl,hi,?_,hlabel,hleak⟩
      rw [List.getElem?_append_left (List.getElem?_eq_some_iff.mp hp).1]
      exact hp
    | inr hcur => exact ⟨past.length,item,blob,hitem,by simp,hcur.1,hcur.2⟩
  · intro i it bl reason hi hp hleak
    by_cases hlt : i < past.length
    · rw [List.getElem?_append_left hlt] at hp
      exact h.full i it bl reason hi hp hleak
    · rw [List.getElem?_append_right (not_lt.mp hlt)] at hp
      rw [List.getElem?_singleton] at hp
      split_ifs at hp with hzero
      cases hp
      have hi' : i = past.length := by omega
      rw [hi',hitem] at hi
      cases hi
      exact hfull reason hleak

/-- The next object starts with nothing seen of it. -/
lemma Reports.start {hits : List Hit} (hfits : cfg.Fits secrets)
    (h : Reports cfg secrets items past "" [] hits) (label : String) :
    Reports cfg secrets items past label [] hits := by
  refine ⟨?_,h.full⟩
  intro hit hmem
  cases h.sound hit hmem with
  | inl hold => exact .inl hold
  | inr hcur => exact absurd hcur.2 (not_leak_nil hfits)

lemma expects_newline (hcur : b.cur = none) (hnl : b.needNL = true) (rest : Bytes)
    (blobs : List Bytes) :
    Expects items budget b past seen rest blobs ↔ ∃ tail future, rest = 10 :: tail ∧
    b.total ≤ budget ∧
      Frames (items.drop past.length) (budget-b.total) tail future ∧ blobs = past ++ future := by
  unfold Expects
  rw [hcur,hnl]
  exact Iff.rfl

lemma expects_header (hcur : b.cur = none) (hnl : b.needNL = false) (rest : Bytes)
    (blobs : List Bytes) :
    Expects items budget b past seen rest blobs ↔ ∃ future, b.total ≤ budget ∧
      Frames (items.drop past.length) (budget-b.total) (b.hdr ++ rest) future ∧
      blobs = past ++ future := by
  unfold Expects
  rw [hcur,hnl]
  exact Iff.rfl

lemma expects_body {sink : WindowSink} (hcur : b.cur = some sink) (rest : Bytes)
    (blobs : List Bytes) :
    Expects items budget b past seen rest blobs ↔ ∃ body tail future, rest = body ++ 10 :: tail ∧
    body.length = b.remain ∧
      b.total+b.remain ≤ budget ∧
      Frames (items.drop (past.length+1)) (budget-(b.total+b.remain)) tail future ∧
      blobs = past ++ (seen ++ body) :: future := by
  unfold Expects
  rw [hcur]
  exact Iff.rfl

lemma turn_newline (hitems : b.items = items) (hbudget : b.budget = budget)
    (hspent : b.total ≤ budget) (herr : b.err = none) (hcur : b.cur = none)
    (hnl : b.needNL = true) (hhdr : b.hdr = []) (hnext : b.next = past.length)
    (hpast : past.length ≤ items.length)
    (hreports : Reports cfg secrets items past "" [] b.hits) (hne : rest ≠ []) :
    Advances cfg secrets items budget b past seen rest (b.turn cfg rest).1 (b.turn cfg rest).2 := by
  cases rest with
  | nil => exact absurd rfl hne
  | cons c tail =>
    by_cases hc : c = 10
    · subst hc
      have hturn : b.turn cfg (10 :: tail) = ({ b with needNL := false },tail) := by
        unfold BatchReader.turn
        simp [hcur,hnl]
      rw [hturn]
      right
      refine ⟨past,[],.header hitems hbudget hspent herr hcur rfl hnext ?_ ?_ hpast hreports,
        by simp,?_⟩
      · change 10 ∉ b.hdr
        rw [hhdr]
        exact List.not_mem_nil
      · change b.hdr.length ≤ _
        rw [hhdr]
        exact Nat.zero_le _
      · intro more blobs
        change _ ↔ Expects items budget { b with needNL := false } past [] (tail ++ more) blobs
        rw [expects_newline hcur hnl,expects_header (b := { b with needNL := false }) hcur rfl]
        change _ ↔ ∃ future, b.total ≤ budget ∧ Frames _ _ (b.hdr ++ (tail ++ more)) future ∧ _
        rw [hhdr,List.nil_append]
        refine ⟨?_,?_⟩
        · rintro ⟨t,future,heq,htotal,hframes,hblobs⟩
          have ht : tail ++ more = t := (List.cons.inj heq).2
          subst ht
          exact ⟨future,htotal,hframes,hblobs⟩
        · rintro ⟨future,htotal,hframes,hblobs⟩
          exact ⟨tail ++ more,future,rfl,htotal,hframes,hblobs⟩
    · have hturn : b.turn cfg (c :: tail) = (b.fail (.badFrame b.curItem.label),[]) := by
        unfold BatchReader.turn
        simp [hcur,hnl,hc]
      rw [hturn]
      left
      refine ⟨err_fail _,?_⟩
      intro more blobs hexp
      rw [expects_newline hcur hnl] at hexp
      obtain ⟨t,_,heq,_⟩ := hexp
      exact hc (List.cons.inj heq).1

/-- A header line is complete: the next object starts, or the reader fails. -/
lemma begin_header {line tail : Bytes} (hfits : cfg.Fits secrets) (hitems : b.items = items)
    (hbudget : b.budget = budget)
    (hspent : b.total ≤ budget) (herr : b.err = none) (hnl : b.needNL = false) (hhdr : b.hdr = [])
    (hnext : b.next = past.length)
    (hreports : Reports cfg secrets items past "" [] b.hits) (hline : 10 ∉ line)
    (hshort : line.length ≤ maxBatchHeaderBytes) :
    ((b.begin line).err ≠ none ∧ ∀ more blobs, ¬ ∃ future, b.total ≤ budget ∧
      Frames (items.drop past.length) (budget-b.total) (line ++ 10 :: (tail ++ more)) future ∧
      blobs = past ++ future) ∨
    ∃ past' seen', Tracks cfg secrets items budget (b.begin line) past' seen' ∧ ∀ more blobs,
      (∃ future, b.total ≤ budget ∧ Frames (items.drop past.length) (budget-b.total) (line ++
        10 :: (tail ++ more)) future ∧
        blobs = past ++ future) ↔ Expects items budget (b.begin line) past' seen' (tail ++
          more) blobs := by
  unfold BatchReader.begin
  rw [hitems,hnext]
  cases hitem : items[past.length]? with
  | none =>
    left
    refine ⟨err_fail _,?_⟩
    rintro more blobs ⟨future,_,hframes,_⟩
    rw [List.drop_eq_nil_of_le (List.getElem?_eq_none_iff.mp hitem),
      frames_line_iff hline] at hframes
    obtain ⟨_,_,_,_,_,_,h,_⟩ := hframes
    cases h
  | some item =>
    obtain ⟨hlt,hget⟩ := List.getElem?_eq_some_iff.mp hitem
    have hdrop : items.drop past.length = item :: items.drop (past.length+1) := by
      rw [List.drop_eq_getElem_cons hlt,hget]
    cases hread : readHeader item line with
    | error fault =>
      left
      simp only [hread]
      refine ⟨err_fail _,?_⟩
      rintro more blobs ⟨future,_,hframes,_⟩
      rw [hdrop,frames_line_iff hline] at hframes
      obtain ⟨_,_,_,_,_,_,h,hok,_⟩ := hframes
      cases h
      rw [hread] at hok
      cases hok
    | ok size =>
      right
      simp only [hread]
      have hwhole : ∀ more blobs,
        (∃ future, b.total ≤ budget ∧ Frames (items.drop past.length) (budget-b.total)
          (line ++ 10 :: (tail ++ more)) future ∧ blobs = past ++ future) ↔
          ∃ body rest future, tail ++ more = body ++ 10 :: rest ∧ body.length = size ∧
          b.total+size ≤ budget ∧
            Frames (items.drop (past.length+1)) (budget-(b.total+size)) rest future ∧
            blobs = past ++ body :: future := by
        intro more blobs
        refine ⟨?_,?_⟩
        · rintro ⟨future,htotal,hframes,hblobs⟩
          rw [hdrop,frames_line_iff hline] at hframes
          obtain ⟨_,_,_,body,rest,future',h,hok,htail,hfit,hlater,hfuture⟩ := hframes
          cases h
          rw [hread] at hok
          have hsize : size = body.length := Except.ok.inj hok
          subst hsize
          refine ⟨body,rest,future',htail,rfl,by omega,?_,by rw [hblobs,hfuture]⟩
          rwa [show budget-(b.total+body.length) = budget-b.total-body.length by omega]
        · rintro ⟨body,rest,future,htail,hsize,htotal,hlater,hblobs⟩
          refine ⟨body :: future,by omega,?_,hblobs⟩
          rw [hdrop,frames_line_iff hline]
          subst hsize
          refine ⟨hshort,item,_,body,rest,future,rfl,hread,htail,by omega,?_,rfl⟩
          rwa [show budget-b.total-body.length = budget-(b.total+body.length) by omega]
      by_cases hzero : size = 0
      · rw [if_pos hzero]
        refine ⟨past ++ [[]],[],.newline rfl hbudget hspent herr rfl rfl hhdr ?_ ?_ ?_,?_⟩
        · change past.length+1 = (past ++ [[]]).length
          simp
        · simp only [List.length_append,List.length_singleton]
          omega
        · exact (hreports.start hfits item.label).finish hitem (fun reason h =>
            absurd h (not_leak_nil hfits))
        · intro more blobs
          rw [hwhole,expects_newline rfl rfl]
          change _ ↔ ∃ rest future, tail ++ more = 10 :: rest ∧ b.total ≤ budget ∧
            Frames (items.drop (past ++ [[]]).length) (budget-b.total) rest future ∧
            blobs = (past ++ [[]]) ++ future
          rw [List.length_append,List.length_singleton,hzero]
          refine ⟨?_,?_⟩
          · rintro ⟨body,rest,future,htail,hnil,htotal,hlater,hblobs⟩
            have hbody := List.length_eq_zero_iff.mp hnil
            subst hbody
            exact ⟨rest,future,htail,htotal,hlater,by rw [hblobs]; simp⟩
          · rintro ⟨rest,future,htail,htotal,hlater,hblobs⟩
            exact ⟨[],rest,future,htail,rfl,htotal,hlater,by rw [hblobs]; simp⟩
      · rw [if_neg hzero]
        refine ⟨past,[],.body rfl hbudget hspent herr rfl hnl hhdr rfl hitem rfl
          (Nat.pos_of_ne_zero hzero)
          (sees_nil hfits _ _) (hreports.start hfits item.label),?_⟩
        intro more blobs
        rw [hwhole,expects_body rfl]
        exact Iff.rfl

lemma turn_header (hfits : cfg.Fits secrets) (hitems : b.items = items)
    (hbudget : b.budget = budget) (hspent : b.total ≤ budget)
    (herr : b.err = none)
    (hcur : b.cur = none) (hnl : b.needNL = false) (hnext : b.next = past.length)
    (hline : 10 ∉ b.hdr)
    (hpast : past.length ≤ items.length) (hreports : Reports cfg secrets items past "" [] b.hits)
    (hne : rest ≠ []) :
    Advances cfg secrets items budget b past seen rest (b.turn cfg rest).1 (b.turn cfg rest).2 := by
  have hturn : b.turn cfg rest = b.header rest := by
    unfold BatchReader.turn
    simp [hcur,hnl]
  rw [hturn]
  by_cases hmem : (10 : UInt8) ∈ rest
  · obtain ⟨line,tail,rfl,hnot⟩ := List.eq_append_cons_of_mem hmem
    have hidx : (line ++ 10 :: tail).idxOf? 10 = some line.length := idxOf?_line hnot
    have hwhole : (10 : UInt8) ∉ b.hdr ++ line := by
      rw [List.mem_append,not_or]
      exact ⟨hline,hnot⟩
    have htake : (line ++ 10 :: tail).take line.length = line := List.take_left
    have hdrop : (line ++ 10 :: tail).drop (line.length+1) = tail := by
      rw [← List.drop_drop,List.drop_left]
      rfl
    have hsame : ∀ more, b.hdr ++ ((line ++ 10 :: tail) ++ more) = (b.hdr ++ line) ++
      10 :: (tail ++ more) := by
      intro more
      simp
    by_cases hlong : maxBatchHeaderBytes < (b.hdr ++ line).length
    · have hheader : b.header (line ++
        10 :: tail) = ({ b with hdr := b.hdr ++ line }.fail .longHeader,[]) := by
        unfold BatchReader.header
        simp only [hidx,htake,if_pos hlong]
      rw [hheader]
      left
      refine ⟨err_fail _,?_⟩
      intro more blobs hexp
      rw [expects_header hcur hnl] at hexp
      obtain ⟨future,_,hframes,_⟩ := hexp
      rw [hsame] at hframes
      exact not_frames_of_long hwhole hlong hframes
    · have hheader : b.header (line ++ 10 :: tail) = ({ b with hdr := [] }.begin (b.hdr ++ line),
        tail) := by
        unfold BatchReader.header
        simp only [hidx,htake,hdrop,if_neg hlong]
      rw [hheader]
      have hbegin := @begin_header cfg secrets items budget { b with hdr := [] } past (b.hdr ++
        line) tail hfits hitems hbudget
        hspent herr hnl rfl hnext hreports hwhole (not_lt.mp hlong)
      cases hbegin with
      | inl hfails =>
        left
        refine ⟨hfails.1,?_⟩
        intro more blobs hexp
        rw [expects_header hcur hnl,hsame] at hexp
        exact hfails.2 more blobs hexp
      | inr hgoes =>
        obtain ⟨past',seen',htracks,hiff⟩ := hgoes
        right
        refine ⟨past',seen',htracks,?_,?_⟩
        · simp only [List.length_append,List.length_cons]
          omega
        · intro more blobs
          rw [expects_header hcur hnl,hsame]
          exact hiff more blobs
  · have hidx : rest.idxOf? 10 = none := List.idxOf?_eq_none_iff.mpr hmem
    have hwhole : (10 : UInt8) ∉ b.hdr ++ rest := by
      rw [List.mem_append,not_or]
      exact ⟨hline,hmem⟩
    by_cases hlong : maxBatchHeaderBytes < (b.hdr ++ rest).length
    · have hheader : b.header rest = ({ b with hdr := b.hdr ++ rest }.fail .longHeader,[]) := by
        unfold BatchReader.header
        simp only [hidx,if_pos hlong]
      rw [hheader]
      left
      refine ⟨err_fail _,?_⟩
      intro more blobs hexp
      rw [expects_header hcur hnl] at hexp
      obtain ⟨future,_,hframes,_⟩ := hexp
      rw [← List.append_assoc] at hframes
      exact not_frames_of_long hwhole hlong hframes
    · have hheader : b.header rest = ({ b with hdr := b.hdr ++ rest },[]) := by
        unfold BatchReader.header
        simp only [hidx,if_neg hlong]
      rw [hheader]
      right
      refine ⟨past,[],.header hitems hbudget hspent herr hcur hnl hnext hwhole
        (not_lt.mp hlong) hpast hreports,
        List.length_pos_iff.mpr hne,?_⟩
      intro more blobs
      change _ ↔ Expects items budget { b with hdr := b.hdr ++ rest } past [] ([] ++ more) blobs
      rw [expects_header hcur hnl,expects_header (b := { b with hdr := b.hdr ++ rest }) hcur hnl,
        List.nil_append]
      change _ ↔ ∃ future, b.total ≤ budget ∧ Frames _ _ ((b.hdr ++ rest) ++ more) future ∧ _
      rw [List.append_assoc]

/-- Bytes that end the object. -/
lemma turn_body_ends {sink : WindowSink} {item : BatchItem} (hfits : cfg.Fits secrets)
    (hitems : b.items = items)
    (hbudget : b.budget = budget) (herr : b.err = none) (hcur : b.cur = some sink)
    (hhdr : b.hdr = []) (hnext : b.next = past.length+1)
    (hitem : items[past.length]? = some item) (hlabel : sink.label = item.label)
    (hremain : 0 < b.remain)
    (hsees : sink.Sees cfg secrets seen b.hits)
    (hreports : Reports cfg secrets items past item.label seen b.hits)
    (hle : b.remain ≤ rest.length) (hfit : b.total+b.remain ≤ budget) :
    Advances cfg secrets items budget b past seen rest (b.turn cfg rest).1 (b.turn cfg rest).2 := by
  have hturn : b.turn cfg rest = (b.ends cfg b.remain (sink.write cfg (rest.take b.remain)),
    rest.drop b.remain) := by
    unfold BatchReader.turn BatchReader.body
    simp only [hcur,Nat.min_eq_right hle,Nat.sub_self,hbudget]
    rw [if_neg (not_lt.mpr hfit)]
    rfl
  have hwrite := hsees.write hfits (rest.take b.remain)
  have hlabel' : (sink.write cfg (rest.take b.remain)).1.label = item.label := by rw [label_write,
    hlabel]
  rw [hturn]
  right
  refine ⟨past ++ [seen ++ rest.take b.remain],[],
    .newline hitems hbudget hfit herr rfl rfl hhdr ?_ ?_ ?_,?_,?_⟩
  · change b.next = _
    rw [hnext]
    simp
  · have hlt := (List.getElem?_eq_some_iff.mp hitem).1
    simp only [List.length_append,List.length_singleton]
    omega
  · refine Reports.finish ⟨?_,?_⟩ hitem ?_
    · intro hit hmem
      have hmem : hit ∈ b.hits ++ (sink.write cfg (rest.take b.remain)).2 ++
        (sink.write cfg (rest.take b.remain)).1.close cfg := hmem
      rw [List.mem_append,List.mem_append] at hmem
      obtain (hmem | hmem) | hmem := hmem
      · cases hreports.sound hit hmem with
        | inl hold => exact .inl hold
        | inr hcur => exact .inr ⟨hcur.1,hcur.2.mono (List.prefix_append _ _).isInfix⟩
      · obtain ⟨hl,hleak⟩ := leak_of_mem_write hfits hsees hmem
        exact .inr ⟨hl.trans hlabel,hleak⟩
      · obtain ⟨hl,hleak⟩ := leak_of_mem_close hfits hwrite hmem
        exact .inr ⟨hl.trans hlabel',hleak⟩
    · intro i it bl reason hi hp hleak
      exact List.mem_append_left _ (List.mem_append_left _
        (hreports.full i it bl reason hi hp hleak))
    · intro reason hleak
      have hclose := hwrite.close hfits hleak
      rwa [hlabel'] at hclose
  · rw [List.length_drop]
    omega
  · intro more blobs
    rw [expects_body hcur,expects_newline rfl rfl]
    change _ ↔ ∃ tail future, rest.drop b.remain ++ more = 10 :: tail ∧ b.total+b.remain ≤ budget ∧
      Frames (items.drop (past ++ [seen ++ rest.take b.remain]).length)
      (budget-(b.total+b.remain)) tail future ∧
      blobs = (past ++ [seen ++ rest.take b.remain]) ++ future
    rw [List.length_append,List.length_singleton]
    refine ⟨?_,?_⟩
    · rintro ⟨body,tail,future,heq,hsize,htotal,hframes,hblobs⟩
      have hsplit : rest.take b.remain ++ (rest.drop b.remain ++ more) = body ++ 10 :: tail := by
        rw [← List.append_assoc,List.take_append_drop,heq]
      obtain ⟨hbody,htail⟩ := List.append_inj hsplit (by rw [List.length_take,hsize]; omega)
      exact ⟨tail,future,htail,htotal,hframes,by rw [hblobs,← hbody]; simp⟩
    · rintro ⟨tail,future,htail,htotal,hframes,hblobs⟩
      refine ⟨rest.take b.remain,tail,future,?_,by rw [List.length_take]; omega,htotal,hframes,
        by rw [hblobs]; simp⟩
      rw [← htail,← List.append_assoc,List.take_append_drop]

/-- Bytes that leave the object unfinished. -/
lemma turn_body_goes {sink : WindowSink} {item : BatchItem} (hfits : cfg.Fits secrets)
    (hitems : b.items = items)
    (hbudget : b.budget = budget) (herr : b.err = none) (hcur : b.cur = some sink)
    (hnl : b.needNL = false) (hhdr : b.hdr = [])
    (hnext : b.next = past.length+1) (hitem : items[past.length]? = some item)
    (hlabel : sink.label = item.label)
    (hsees : sink.Sees cfg secrets seen b.hits)
    (hreports : Reports cfg secrets items past item.label seen b.hits)
    (hne : rest ≠ []) (hlt : rest.length < b.remain) (hfit : b.total+rest.length ≤ budget) :
    Advances cfg secrets items budget b past seen rest (b.turn cfg rest).1 (b.turn cfg rest).2 := by
  have hturn : b.turn cfg rest = (b.goes rest.length (sink.write cfg rest),[]) := by
    unfold BatchReader.turn BatchReader.body
    simp only [hcur,Nat.min_eq_left (le_of_lt hlt),hbudget,List.take_length,List.drop_length]
    rw [if_neg (not_lt.mpr hfit),if_neg (by omega)]
  rw [hturn]
  right
  refine ⟨past,seen ++ rest,.body hitems hbudget hfit herr rfl hnl hhdr hnext hitem ?_ ?_
    (hsees.write hfits rest) ⟨?_,?_⟩,
    List.length_pos_iff.mpr hne,?_⟩
  · rw [label_write,hlabel]
  · change 0 < b.remain-rest.length
    omega
  · intro hit hmem
    have hmem : hit ∈ b.hits ++ (sink.write cfg rest).2 := hmem
    rw [List.mem_append] at hmem
    cases hmem with
    | inl hmem =>
      cases hreports.sound hit hmem with
      | inl hold => exact .inl hold
      | inr hcur => exact .inr ⟨hcur.1,hcur.2.mono (List.prefix_append _ _).isInfix⟩
    | inr hmem =>
      obtain ⟨hl,hleak⟩ := leak_of_mem_write hfits hsees hmem
      exact .inr ⟨hl.trans hlabel,hleak⟩
  · intro i it bl reason hi hp hleak
    exact List.mem_append_left _ (hreports.full i it bl reason hi hp hleak)
  · intro more blobs
    rw [expects_body hcur,expects_body rfl]
    change _ ↔ ∃ body tail future, [] ++ more = body ++ 10 :: tail ∧
      body.length = b.remain-rest.length ∧
      b.total+rest.length+(b.remain-rest.length) ≤ budget ∧
      Frames (items.drop (past.length+1))
      (budget-(b.total+rest.length+(b.remain-rest.length))) tail future ∧
      blobs = past ++ (seen ++ rest ++ body) :: future
    rw [List.nil_append,show b.total+rest.length+(b.remain-rest.length) = b.total+b.remain by omega]
    refine ⟨?_,?_⟩
    · rintro ⟨body,tail,future,heq,hsize,htotal,hframes,hblobs⟩
      have hsplit : rest ++ more = body.take rest.length ++
        (body.drop rest.length ++ 10 :: tail) := by
        rw [heq,← List.append_assoc,List.take_append_drop]
      obtain ⟨htake,hmore⟩ := List.append_inj hsplit (by rw [List.length_take]; omega)
      refine ⟨body.drop rest.length,tail,future,hmore,by rw [List.length_drop,hsize],htotal,
        hframes,?_⟩
      have hbody : rest ++ body.drop rest.length = body := by
        nth_rewrite 1 [htake]
        exact List.take_append_drop _ _
      rw [hblobs,List.append_assoc,hbody]
    · rintro ⟨body,tail,future,heq,hsize,htotal,hframes,hblobs⟩
      refine ⟨rest ++ body,tail,future,?_,by rw [List.length_append,hsize]; omega,htotal,hframes,?_⟩
      · rw [heq,List.append_assoc]
      · rw [hblobs,List.append_assoc]

/-- Bytes that would pass the budget. -/
lemma turn_body_over {sink : WindowSink} (hbudget : b.budget = budget) (hcur : b.cur = some sink)
    (hover : budget < b.total+min rest.length b.remain) :
    Advances cfg secrets items budget b past seen rest (b.turn cfg rest).1 (b.turn cfg rest).2 := by
  have hturn : b.turn cfg rest = (b.fail (.overBudget b.curItem.label b.total b.budget),[]) := by
    unfold BatchReader.turn BatchReader.body
    simp only [hcur,hbudget]
    rw [if_pos hover]
  rw [hturn]
  left
  refine ⟨err_fail _,?_⟩
  intro more blobs hexp
  rw [expects_body hcur] at hexp
  obtain ⟨_,_,_,_,_,htotal,_⟩ := hexp
  omega

/-- One round of a write. -/
lemma turn_advances (hfits : cfg.Fits secrets) (h : Tracks cfg secrets items budget b past seen)
    (hne : rest ≠ []) :
    Advances cfg secrets items budget b past seen rest (b.turn cfg rest).1 (b.turn cfg rest).2 := by
  cases h with
  | header hitems hbudget hspent herr hcur hnl hnext hline hshort hpast hreports =>
    exact turn_header hfits hitems hbudget hspent herr hcur hnl hnext hline hpast hreports hne
  | newline hitems hbudget hspent herr hcur hnl hhdr hnext hpast hreports =>
    exact turn_newline hitems hbudget hspent herr hcur hnl hhdr hnext hpast hreports hne
  | body hitems hbudget _ herr hcur hnl hhdr hnext hitem hlabel hremain hsees hreports =>
    by_cases hover : budget < b.total+min rest.length b.remain
    · exact turn_body_over hbudget hcur hover
    · by_cases hle : b.remain ≤ rest.length
      · exact turn_body_ends hfits hitems hbudget herr hcur hhdr hnext hitem hlabel hremain hsees
          hreports hle (by omega)
      · exact turn_body_goes hfits hitems hbudget herr hcur hnl hhdr hnext hitem hlabel hsees
          hreports hne (by omega) (by omega)

/-- A write leaves the reader failed where nothing could have ended well, or tracking what it has
read. -/
def Reads (cfg : ScanConfig) (secrets : List Bytes) (items : List BatchItem) (budget : ℕ)
    (b : BatchReader) (past : List Bytes)
    (seen rest : Bytes) (b' : BatchReader) : Prop :=
  (b'.err ≠ none ∧ ∀ more blobs, ¬ Expects items budget b past seen (rest ++ more) blobs) ∨
  ∃ past' seen', Tracks cfg secrets items budget b' past' seen' ∧
    ∀ more blobs, Expects items budget b past seen (rest ++ more) blobs ↔
    Expects items budget b' past' seen' more blobs

lemma Tracks.err_none (h : Tracks cfg secrets items budget b past seen) : b.err = none := by
  cases h with
  | header _ _ _ herr => exact herr
  | body _ _ _ herr => exact herr
  | newline _ _ _ herr => exact herr

lemma loop_of_err (fuel : ℕ) (h : b.err ≠ none) (rest : Bytes) : b.loop cfg fuel rest = b := by
  cases fuel with
  | zero => rfl
  | succ fuel =>
    rw [BatchReader.loop,if_pos (.inr h)]

lemma loop_reads (hfits : cfg.Fits secrets) {fuel : ℕ}
    (h : Tracks cfg secrets items budget b past seen)
    (hfuel : rest.length < fuel) :
    Reads cfg secrets items budget b past seen rest (b.loop cfg fuel rest) := by
  induction fuel generalizing b past seen rest with
  | zero => omega
  | succ fuel ih =>
    rw [BatchReader.loop]
    by_cases hnil : rest = []
    · rw [if_pos (.inl hnil)]
      right
      refine ⟨past,seen,h,?_⟩
      intro more blobs
      rw [hnil,List.nil_append]
    · have hgo : ¬ (rest = [] ∨ b.err ≠ none) := by
        rw [not_or,not_not]
        exact ⟨hnil,h.err_none⟩
      rw [if_neg hgo]
      cases turn_advances hfits h hnil with
      | inl hfails =>
        left
        refine ⟨?_,hfails.2⟩
        simp only [loop_of_err fuel hfails.1]
        exact hfails.1
      | inr hgoes =>
        obtain ⟨past',seen',htracks,hless,hiff⟩ := hgoes
        cases ih htracks (by omega : (b.turn cfg rest).2.length < fuel) with
        | inl hfails =>
          left
          refine ⟨hfails.1,?_⟩
          intro more blobs hexp
          exact hfails.2 more blobs ((hiff more blobs).mp hexp)
        | inr hreads =>
          obtain ⟨past'',seen'',htracks',hiff'⟩ := hreads
          right
          refine ⟨past'',seen'',htracks',?_⟩
          intro more blobs
          rw [hiff,hiff']

lemma write_reads (hfits : cfg.Fits secrets) (h : Tracks cfg secrets items budget b past seen)
    (p : Bytes) :
    Reads cfg secrets items budget b past seen p (b.write cfg p) := by
  unfold BatchReader.write
  rw [if_neg (not_not.mpr h.err_none)]
  exact loop_reads hfits h (by omega)

lemma writes_of_err (h : b.err ≠ none) (writes : List Bytes) :
    writes.foldl (BatchReader.write cfg) b = b := by
  induction writes with
  | nil => rfl
  | cons p writes ih =>
    have hwrite : b.write cfg p = b := by
      unfold BatchReader.write
      rw [if_pos h]
    rw [List.foldl_cons,hwrite,ih]

/-- However an output is cut into writes. -/
lemma writes_read (hfits : cfg.Fits secrets) (h : Tracks cfg secrets items budget b past seen)
    (writes : List Bytes) :
    Reads cfg secrets items budget b past seen writes.flatten
    (writes.foldl (BatchReader.write cfg) b) := by
  induction writes generalizing b past seen with
  | nil => exact .inr ⟨past,seen,h,fun more blobs => Iff.rfl⟩
  | cons p writes ih =>
    rw [List.foldl_cons,List.flatten_cons]
    cases write_reads hfits h p with
    | inl hfails =>
      rw [writes_of_err hfails.1]
      left
      refine ⟨hfails.1,?_⟩
      intro more blobs hexp
      rw [List.append_assoc] at hexp
      exact hfails.2 _ blobs hexp
    | inr hreads =>
      obtain ⟨past',seen',htracks,hiff⟩ := hreads
      cases ih htracks with
      | inl hfails =>
        left
        refine ⟨hfails.1,?_⟩
        intro more blobs hexp
        rw [List.append_assoc,hiff] at hexp
        exact hfails.2 more blobs hexp
      | inr hreads' =>
        obtain ⟨past'',seen'',htracks',hiff'⟩ := hreads'
        right
        refine ⟨past'',seen'',htracks',?_⟩
        intro more blobs
        rw [List.append_assoc,hiff,hiff']

/-- The reader has ended well exactly when nothing more is expected. Its hits are then the leaks of
the objects. -/
lemma complete_iff (h : Tracks cfg secrets items budget b past seen) :
    b.complete = none ↔ ∃ blobs, Expects items budget b past seen [] blobs := by
  unfold BatchReader.complete
  cases h with
  | header hitems _ hspent herr hcur hnl hnext hline _ hpast _ =>
    simp only [herr]
    refine ⟨?_,?_⟩
    · intro hnone
      split_ifs at hnone with hbad
      simp only [not_or,ne_eq,not_not] at hbad
      refine ⟨past,(expects_header hcur hnl _ _).mpr ⟨[],hspent,?_,by simp⟩⟩
      have hend : items.drop past.length = [] := by
        rw [← hnext,hbad.1,hitems]
        exact List.drop_length
      rw [hend,hbad.2.2.2]
      exact .nil _
    · rintro ⟨blobs,hexp⟩
      rw [expects_header hcur hnl,List.append_nil] at hexp
      obtain ⟨future,_,hframes,_⟩ := hexp
      have hhdr : b.hdr = [] := by
        by_contra hne
        exact not_frames_of_notMem hne hline hframes
      rw [hhdr] at hframes
      have hle := List.drop_eq_nil_iff.mp (frames_nil hframes).1
      rw [if_neg]
      simp only [not_or,ne_eq,not_not]
      refine ⟨?_,hcur,by simp [hnl],hhdr⟩
      rw [hnext,hitems]
      omega
  | body _ _ _ herr hcur =>
    simp only [herr]
    refine ⟨?_,?_⟩
    · intro hnone
      rw [if_pos (.inr (.inl (by rw [hcur]; exact Option.some_ne_none _)))] at hnone
      cases hnone
    · rintro ⟨blobs,hexp⟩
      rw [expects_body hcur] at hexp
      obtain ⟨body,tail,_,heq,_⟩ := hexp
      simp at heq
  | newline _ _ _ herr hcur hnl =>
    simp only [herr]
    refine ⟨?_,?_⟩
    · intro hnone
      rw [if_pos (.inr (.inr (.inl hnl)))] at hnone
      cases hnone
    · rintro ⟨blobs,hexp⟩
      rw [expects_newline hcur hnl] at hexp
      obtain ⟨tail,_,heq,_⟩ := hexp
      cases heq

/-- What was read is all there was, and the hits are its leaks. -/
lemma reports_of_end {blobs : List Bytes} (h : Tracks cfg secrets items budget b past seen)
    (hexp : Expects items budget b past seen [] blobs) :
    Reports cfg secrets items blobs "" [] b.hits := by
  cases h with
  | header _ _ _ _ hcur hnl _ hline _ _ hreports =>
    rw [expects_header hcur hnl,List.append_nil] at hexp
    obtain ⟨future,_,hframes,hblobs⟩ := hexp
    have hhdr : b.hdr = [] := by
      by_contra hne
      exact not_frames_of_notMem hne hline hframes
    rw [hhdr] at hframes
    rw [hblobs,(frames_nil hframes).2,List.append_nil]
    exact hreports
  | body _ _ _ _ hcur =>
    rw [expects_body hcur] at hexp
    obtain ⟨body,tail,_,heq,_⟩ := hexp
    simp at heq
  | newline _ _ _ _ hcur hnl =>
    rw [expects_newline hcur hnl] at hexp
    obtain ⟨tail,_,heq,_⟩ := hexp
    cases heq

lemma tracks_new (cfg : ScanConfig) (secrets : List Bytes) (items : List BatchItem) (budget : ℕ) :
    Tracks cfg secrets items budget (.new items budget) [] [] := by
  refine .header rfl rfl (Nat.zero_le _) rfl rfl rfl rfl List.not_mem_nil (Nat.zero_le _)
    (Nat.zero_le _) ⟨?_,?_⟩
  · intro hit hmem
    cases hmem
  · intro i item blob reason _ hblob
    cases hblob

lemma expects_new (out : Bytes) (blobs : List Bytes) :
    Expects items budget (.new items budget) [] [] out blobs ↔ Frames items budget out blobs := by
  rw [expects_header rfl rfl]
  change (∃ future, 0 ≤ budget ∧ Frames items budget out future ∧ blobs = [] ++ future) ↔ _
  simp

end turns

section scan
variable {cfg : ScanConfig} {secrets : List Bytes} {items : List BatchItem} {budget : ℕ}

/-- The stream ends well exactly when git exited well and its output is framed. The hits are then
the leaks. -/
lemma streamBlobs_spec (hfits : cfg.Fits secrets) (hitems : items ≠ []) (writes : List Bytes)
    (exited : Bool) :
    ((streamBlobs cfg budget items writes exited).1 = none ↔ exited = true ∧ ∃ blobs,
      Frames items budget writes.flatten blobs) ∧
    ∀ blobs, (streamBlobs cfg budget items writes exited).1 = none →
    Frames items budget writes.flatten blobs →
      Reports cfg secrets items blobs "" [] (streamBlobs cfg budget items writes exited).2 := by
  have hreads := writes_read hfits (tracks_new cfg secrets items budget) writes
  unfold streamBlobs
  rw [if_neg hitems]
  generalize hb : writes.foldl (BatchReader.write cfg) (BatchReader.new items budget) = b at hreads
  cases hreads with
  | inl hfails =>
    obtain ⟨herr,hnot⟩ := hfails
    obtain ⟨fault,hfault⟩ := Option.ne_none_iff_exists'.mp herr
    have hframes : ∀ blobs, ¬ Frames items budget writes.flatten blobs := by
      intro blobs hframes
      refine hnot [] blobs ?_
      rw [List.append_nil,expects_new]
      exact hframes
    simp only [hfault]
    refine ⟨?_,?_⟩
    · simp [hframes]
    · intro blobs _ hf
      exact absurd hf (hframes blobs)
  | inr hgoes =>
    obtain ⟨past,seen,htracks,hiff⟩ := hgoes
    have hframes : ∀ blobs, Frames items budget writes.flatten blobs ↔
      Expects items budget b past seen [] blobs := by
      intro blobs
      rw [← hiff,List.append_nil,expects_new]
    have hcomplete := complete_iff htracks
    simp only [htracks.err_none]
    refine ⟨?_,?_⟩
    · cases exited with
      | false => simp
      | true =>
        simp only [hframes]
        simpa using hcomplete
    · intro blobs _ hf
      have hhits : ∀ c : Prop, ∀ [Decidable c], ∀ x y :
        Option ScanFault, (if c then (x,b.hits) else (y,b.hits)).2 = b.hits := by
        intro c _ x y
        split_ifs
        · rfl
        · rfl
      rw [hhits]
      exact reports_of_end htracks ((hframes blobs).mp hf)

/-- No framed output is the beginning of another. -/
lemma Frames.unextended {out : Bytes} {blobs : List Bytes} (h : Frames items budget out blobs)
    {more : Bytes} {blobs' : List Bytes}
    (h' : Frames items budget (out ++ more) blobs') : more = [] := by
  induction h generalizing more blobs' with
  | nil =>
    generalize hout : [] ++ more = out at h'
    cases h'
    exact hout
  | @cons item items budget header body rest blobs hline hshort hread hbudget h ih =>
    have hassoc : (header ++ 10 :: (body ++ 10 :: rest)) ++ more = header ++
      10 :: (body ++ 10 :: (rest ++ more)) := by simp
    rw [hassoc,frames_line_iff hline] at h'
    obtain ⟨_,_,_,body',tail,future,heq,hread',htail,_,hlater,_⟩ := h'
    cases heq
    rw [hread] at hread'
    have hsize : body.length = body'.length := Except.ok.inj hread'
    obtain ⟨hbody,hrest⟩ := List.append_inj htail hsize
    have hmore : rest ++ more = tail := (List.cons.inj hrest).2
    subst hmore
    rw [← hsize] at hlater
    exact ih hlater

end scan

section deps
variable {deps : ScanDeps} {secrets : List Bytes} {values : List (Bytes × String)}

/-- The credentials that the known-secret predicate finds: finitely many, and none longer than it
says. -/
structure ScanDeps.Held (deps : ScanDeps) (secrets : List Bytes) : Prop where
  known : KnownBy secrets deps.knownSecret
  secrets : ∀ v ∈ secrets, v ≠ [] ∧ (v.length : ℤ) ≤ deps.maxLen

/-- There are objects to read and something to look for in them. -/
def ScanDeps.Asks (deps : ScanDeps) (values : List (Bytes × String)) (items : List BatchItem) :
    Prop :=
  items ≠ [] ∧ (deps.knownSecret ≠ none ∨ values ≠ [])

lemma le_foldl_max (values : List (Bytes × String)) (start : ℤ) :
    start ≤ values.foldl (fun longest v => max longest (v.1.length : ℤ)) start ∧
    ∀ v ∈ values, (v.1.length : ℤ) ≤ values.foldl (fun longest v =>
      max longest (v.1.length : ℤ)) start := by
  induction values generalizing start with
  | nil =>
    refine ⟨le_refl _,?_⟩
    intro v hv
    cases hv
  | cons w values ih =>
    rw [List.foldl_cons]
    obtain ⟨hstart,hall⟩ := ih (max start (w.1.length : ℤ))
    refine ⟨(le_max_left _ _).trans hstart,?_⟩
    intro v hv
    rw [List.mem_cons] at hv
    cases hv with
    | inl hv =>
      rw [hv]
      exact (le_max_right _ _).trans hstart
    | inr hv => exact hall v hv

lemma length_le_longest {v : Bytes × String} (hv : v ∈ values) :
    (v.1.length : ℤ) ≤ deps.longest values := by
  have hall := (le_foldl_max values 0).2 v hv
  unfold ScanDeps.longest
  split_ifs
  · exact hall.trans (le_max_left _ _)
  · exact hall

/-- The overlap is one short of the longest value. -/
lemma fits_config (hheld : deps.Held secrets) (hvalues : ∀ v ∈ values, v.1 ≠ []) :
    (deps.config values).Fits secrets := by
  have hoverlap : ∀ n : ℕ, (n : ℤ) ≤ deps.longest values → n ≤ (deps.config values).overlap+1 := by
    intro n hn
    change n ≤ (max (deps.longest values-1) 0).toNat+1
    omega
  refine ⟨hheld.known,?_,?_⟩
  · intro n hn
    obtain ⟨v,hv,rfl⟩ := List.mem_map.mp hn
    exact ⟨hvalues v hv,hoverlap _ (length_le_longest hv)⟩
  · intro v hv
    obtain ⟨hne,hlen⟩ := hheld.secrets v hv
    refine ⟨hne,hoverlap _ (hlen.trans ?_)⟩
    have hsome : deps.knownSecret.isSome = true := by
      have hknown := hheld.known
      cases hk : deps.knownSecret with
      | none =>
        rw [hk] at hknown
        rw [show secrets = [] from hknown] at hv
        cases hv
      | some known => rfl
    unfold ScanDeps.longest
    rw [hsome,if_pos rfl]
    exact le_max_right _ _

lemma nothing_of_not_asks {items : List BatchItem} (h : ¬ deps.Asks values items)
    (hitems : items ≠ []) :
    deps.knownSecret = none ∧ values = [] := by
  by_contra hsome
  rw [not_and_or] at hsome
  exact h ⟨hitems,hsome⟩

/-- With nothing to look for, nothing is a leak. -/
lemma not_leak_of_not_asks (hheld : deps.Held secrets) (hnone : deps.knownSecret = none)
    (hnil : values = []) (reason : String)
    (blob : Bytes) : ¬ Leak (needles values) secrets reason blob := by
  have hknown := hheld.known
  rw [hnone] at hknown
  rw [hnil,show secrets = [] from hknown]
  intro h
  cases h with
  | inl h =>
    obtain ⟨n,hn,_⟩ := h
    cases hn
  | inr h =>
    obtain ⟨_,v,hv,_⟩ := h
    cases hv

end deps

/-- A scan that is asked for something fails unless git exited well and framed every object in turn
within the budget, so also on every output that is cut short or goes on. Where it does not fail, a
path is reported for a reason exactly when a value of that reason is in its blob, for every cut into
writes and every chunk size. -/
theorem scanBlobs_exact {deps : ScanDeps} {secrets : List Bytes} {values : List (Bytes × String)}
    (hheld : deps.Held secrets)
    (hvalues : ∀ v ∈ values, v.1 ≠ []) (items : List BatchItem) (writes : List Bytes)
    (exited : Bool) :
    (deps.Asks values items → ((scanBlobs deps values items writes exited).1 = none ↔
      exited = true ∧ ∃ blobs, Frames items deps.budget writes.flatten blobs)) ∧
    (deps.Asks values items → ∀ out blobs, Frames items deps.budget out blobs →
      out ≠ writes.flatten →
      (writes.flatten <+: out ∨ out <+: writes.flatten) →
      (scanBlobs deps values items writes exited).1 ≠ none) ∧
    ((scanBlobs deps values items writes exited).1 = none → ∀ blobs,
      (deps.Asks values items → Frames items deps.budget writes.flatten blobs) → ∀ path reason,
      (path,reason) ∈ (scanBlobs deps values items writes exited).2 ↔
      ∃ (i : ℕ) (item : BatchItem) (blob : Bytes),
        items[i]? = some item ∧ blobs[i]? = some blob ∧ item.label = path ∧
        Leak (needles values) secrets reason blob) := by
  have hfits := fits_config hheld hvalues
  have hasked : deps.Asks values items → scanBlobs deps values items writes exited =
      streamBlobs (deps.config values) deps.budget items writes exited := by
    intro hasks
    unfold scanBlobs
    rw [if_neg hasks.1,if_neg]
    rintro ⟨hnone,hnil⟩
    cases hasks.2 with
    | inl h => exact h (Option.isNone_iff_eq_none.mp hnone)
    | inr h => exact h (List.map_eq_nil_iff.mp hnil)
  have hiff : deps.Asks values items → ((scanBlobs deps values items writes exited).1 = none ↔
      exited = true ∧ ∃ blobs, Frames items deps.budget writes.flatten blobs) := by
    intro hasks
    rw [hasked hasks]
    exact (streamBlobs_spec hfits hasks.1 writes exited).1
  refine ⟨hiff,?_,?_⟩
  · intro hasks out blobs hframes hne hcut hnone
    obtain ⟨_,blobs',hframes'⟩ := (hiff hasks).mp hnone
    cases hcut with
    | inl hshort =>
      obtain ⟨more,hmore⟩ := hshort
      rw [← hmore] at hframes hne
      rw [hframes'.unextended hframes,List.append_nil] at hne
      exact hne rfl
    | inr hlong =>
      obtain ⟨more,hmore⟩ := hlong
      rw [← hmore] at hframes' hne
      rw [hframes.unextended hframes',List.append_nil] at hne
      exact hne rfl
  · intro hnone blobs hframes path reason
    by_cases hasks : deps.Asks values items
    · rw [hasked hasks] at hnone ⊢
      have hreports := (streamBlobs_spec hfits hasks.1 writes exited).2 blobs hnone (hframes hasks)
      refine ⟨?_,?_⟩
      · intro hmem
        cases hreports.sound _ hmem with
        | inl h =>
          obtain ⟨i,item,blob,hi,hb,hlabel,hleak⟩ := h
          exact ⟨i,item,blob,hi,hb,hlabel.symm,hleak⟩
        | inr h => exact absurd h.2 (not_leak_nil hfits)
      · rintro ⟨i,item,blob,hi,hb,hlabel,hleak⟩
        have hmem := hreports.full i item blob reason hi hb hleak
        rwa [hlabel] at hmem
    · have hrun : scanBlobs deps values items writes exited = (none,[]) := by
        unfold scanBlobs
        by_cases hnil : items = []
        · rw [if_pos hnil]
        · rw [if_neg hnil,if_pos]
          obtain ⟨hk,hv⟩ := nothing_of_not_asks hasks hnil
          exact ⟨Option.isNone_iff_eq_none.mpr hk,by rw [hv]; rfl⟩
      rw [hrun]
      refine ⟨fun h => (List.not_mem_nil h).elim,?_⟩
      rintro ⟨i,item,blob,hi,_,_,hleak⟩
      by_cases hnil : items = []
      · rw [hnil] at hi
        cases hi
      · obtain ⟨hk,hv⟩ := nothing_of_not_asks hasks hnil
        exact absurd hleak (not_leak_of_not_asks hheld hk hv reason blob)

/-- A check that holds one value, with windows of two fresh bytes. -/
def sampleDeps : ScanDeps := ⟨none,none,2,0⟩

def sampleValues : List (Bytes × String) := [(ascii "hunter",".env")]

def sampleItems : List BatchItem := [⟨ascii "ab12","a.bin"⟩]

/-- The header, the value and the frame are all cut by the writes. -/
def sampleWrites : List Bytes := [ascii "ab12 bl",ascii "ob 8\nxhu",ascii "nt",ascii "er!\n"]

theorem scanBlobs_exact_sampleWrites :
    sampleDeps.Held [] ∧ (∀ v ∈ sampleValues, v.1 ≠ []) ∧ sampleDeps.Asks sampleValues sampleItems ∧
    (scanBlobs sampleDeps sampleValues sampleItems sampleWrites true).1 = none ∧
    ((scanBlobs sampleDeps sampleValues sampleItems sampleWrites true).1 = none ↔
      true = true ∧ ∃ blobs, Frames sampleItems sampleDeps.budget sampleWrites.flatten blobs) := by
  have hheld : sampleDeps.Held [] := by
    refine ⟨rfl,?_⟩
    intro v hv
    cases hv
  have hvalues : ∀ v ∈ sampleValues, v.1 ≠ [] := by decide
  have hasks : sampleDeps.Asks sampleValues sampleItems :=
    ⟨List.cons_ne_nil _ _,.inr (List.cons_ne_nil _ _)⟩
  exact ⟨hheld,hvalues,hasks,by decide,
    (scanBlobs_exact hheld hvalues sampleItems sampleWrites true).1 hasks⟩

example : (scanBlobs sampleDeps sampleValues sampleItems sampleWrites true).2.head? =
    some ("a.bin","contains a value assigned in .env") := by decide

end Manvi.DevCouncil
