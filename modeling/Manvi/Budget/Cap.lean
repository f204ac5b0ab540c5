import Manvi.Budget.Ledger

/-! Over every interleaving of ledger operations the committed total stays within the limit, and
every attempt is issued once and resolved at most once. -/
namespace Manvi.Budget

/-- How an attempt leaves the ledger. -/
inductive How where
  | notSent
  | refused
  | retained
  | settled
  deriving Repr, DecidableEq

/-- The attempts that an operation resolves when it goes through. -/
def resolutions (s : Snapshot) : Op → List (ℕ × How)
  | .reserve self gone _ _ _ => (s.inFlight.filter (Attempt.dead self gone)).map (fun a =>
    (a.id,.retained))
  | .transportResult id .notSent _ => [(id,.notSent)]
  | .transportResult id .rejected refund => [(id,if refund then .refused else .retained)]
  | .transportResult id .unknown _ => [(id,.retained)]
  | .transportResult _ .accepted _ => []
  | .transportResult _ (.other _) _ => []
  | .settle id _ => [(id,.settled)]
  | .retain id => if (s.find id).isSome then [(id,.retained)] else []
  | .retainAt id _ => if (s.find id).isSome then [(id,.retained)] else []
  | .reconcile self gone => (s.inFlight.filter (Attempt.dead self gone)).map (fun a =>
    (a.id,.retained))

/-- The identifiers that an operation issues when it goes through. -/
def issues (s : Snapshot) : Op → List ℕ
  | .reserve _ _ _ _ _ => [s.nextID]
  | _ => []

/-- A ledger with the record of what was issued and resolved on it. -/
structure Book where
  ledger : Snapshot
  issued : List ℕ
  resolved : List (ℕ × How)

/-- An operation that some process attempts; one that is not granted found the file locked, or could
not read or write it. -/
structure Request where
  op : Op
  granted : Bool

namespace Book

def empty : Book := ⟨.empty,[],[]⟩

/-- The book after a request. A refused one leaves it as it was. -/
def after (limit : Limit) (b : Book) (r : Request) : Book :=
  if r.granted then
    match update limit.nanoUSD b.ledger r.op with
    | .ok next => ⟨next,b.issued ++ issues b.ledger r.op,b.resolved ++ resolutions b.ledger r.op⟩
    | .error _ => b
  else b

def run (limit : Limit) (requests : List Request) : Book := requests.foldl (after limit) empty

end Book

/-- A charge or a bound that is at most the attempt's reservation. -/
def Op.Within (s : Snapshot) : Op → Prop
  | .settle id charge => ∀ a, s.find id = some a → charge ≤ a.reservedNanoUSD
  | .retainAt id bound => ∀ a, s.find id = some a → bound ≤ a.reservedNanoUSD
  | _ => True

/-- Requests that stay within the reservations at the moment they are made. -/
def Within (limit : Limit) : Book → List Request → Prop
  | _,[] => True
  | b,r :: requests => r.op.Within b.ledger ∧ Within limit (b.after limit r) requests

/-! Arithmetic of 64 bits that does not wrap. -/

lemma int64_eq {x : ℤ} (hl : -2^63 ≤ x) (hh : x ≤ maxInt64) : int64 x = x := by
  unfold maxInt64 at hh
  unfold int64
  apply Int.bmod_eq_of_le <;> omega

lemma int64_le (x : ℤ) : int64 x ≤ maxInt64 := by
  have h := @Int.bmod_lt x (2^64) (by decide)
  unfold int64 maxInt64
  omega

lemma int64_add_int64 (x y : ℤ) : int64 (int64 x+y) = int64 (x+y) := by
  unfold int64
  exact Int.bmod_add_bmod

/-- A counter that is still not negative after a few steps did not wrap. -/
lemma int64_counter {x : ℤ} {k : ℕ} (hx : 0 ≤ x) (hm : x ≤ maxInt64) (hk : k ≤ 2^62)
    (h : 0 ≤ int64 (x+k)) : int64 (x+k) = x+k := by
  by_cases hle : x+k ≤ maxInt64
  · exact int64_eq (by omega) hle
  · exfalso
    have hwrap : int64 (x+k) = x+k-2^64 := by
      have hsub : int64 (x+k) = int64 (x+k-2^64) := by
        have hmod : (x+k-2^64)%((2^64 : ℕ) : ℤ) = (x+k)%((2^64 : ℕ) : ℤ) := by
          push_cast
          omega
        unfold int64
        rw [Int.bmod_def,Int.bmod_def,hmod]
      rw [hsub]
      unfold maxInt64 at hm hle
      apply int64_eq
      · omega
      · unfold maxInt64
        omega
    unfold maxInt64 at *
    omega

namespace Snapshot

def ids (s : Snapshot) : List ℕ := s.inFlight.map Attempt.id

def reserved (attempts : List Attempt) : ℤ := (attempts.map Attempt.reservedNanoUSD).sum

/-- The committed total without wrapping. -/
def total (s : Snapshot) : ℤ := s.spentNanoUSD+s.retainedNanoUSD+reserved s.inFlight

/-- A ledger whose totals are amounts that fit. -/
structure Fits (s : Snapshot) : Prop where
  spent : 0 ≤ s.spentNanoUSD
  retained : 0 ≤ s.retainedNanoUSD
  positive : ∀ a ∈ s.inFlight, 0 < a.reservedNanoUSD
  total : s.total ≤ maxInt64

lemma reserved_nonneg {attempts : List Attempt} (h : ∀ a ∈ attempts, 0 < a.reservedNanoUSD) :
    0 ≤ reserved attempts := by
  apply List.sum_nonneg
  intro x hx
  obtain ⟨a,ha,rfl⟩ := List.mem_map.mp hx
  exact (h a ha).le

lemma foldl_reserved {attempts : List Attempt} {start : ℤ} (hs : 0 ≤ start)
    (h : ∀ a ∈ attempts, 0 < a.reservedNanoUSD) (hm : start+reserved attempts ≤ maxInt64) :
    attempts.foldl (fun total a => int64 (total+a.reservedNanoUSD)) start =
    start+reserved attempts := by
  induction attempts generalizing start with
  | nil => simp [reserved]
  | cons a attempts ih =>
    obtain ⟨ha,hrest⟩ := List.forall_mem_cons.mp h
    have hsum : reserved (a :: attempts) = a.reservedNanoUSD+reserved attempts := by simp [reserved]
    have hnn := reserved_nonneg hrest
    rw [hsum] at hm ⊢
    rw [List.foldl_cons,int64_eq (by omega) (by omega),ih (by omega) hrest (by omega)]
    ring

/-- The committed total of a ledger that fits is the exact one. -/
lemma committed_eq {s : Snapshot} (h : s.Fits) : s.committedNanoUSD = s.total := by
  have hnn := reserved_nonneg h.positive
  have htotal := h.total
  have hspent := h.spent
  have hretained := h.retained
  unfold total at htotal ⊢
  have hflight : s.inFlightNanoUSD = reserved s.inFlight := by
    rw [inFlightNanoUSD,foldl_reserved le_rfl h.positive (by omega)]
    ring
  rw [committedNanoUSD,hflight,int64_add_int64,int64_eq (by omega) (by omega)]

end Snapshot

open Snapshot

/-- What a validated list of attempts is like. -/
lemma validateInFlight_ok {nextID : ℕ} {seen : List ℕ} {start : ℤ} {attempts : List Attempt}
    (h : validateInFlight nextID seen start attempts = .ok ()) :
    (∀ a ∈ attempts, 0 < a.id ∧ a.id < nextID ∧ a.id ∉ seen ∧ 0 < a.reservedNanoUSD) ∧
      (attempts.map Attempt.id).Nodup ∧
      (start ≤ maxInt64 → start+reserved attempts ≤ maxInt64) := by
  induction attempts generalizing seen start with
  | nil => simp [reserved]
  | cons a attempts ih =>
    rw [validateInFlight] at h
    by_cases hid : a.id = 0 ∨ a.id ≥ nextID ∨ a.id ∈ seen
    · rw [if_pos hid] at h
      cases h
    rw [if_neg hid] at h
    split at h
    · cases h
    split_ifs at h with hres hover
    obtain ⟨hall,hnodup,htotal⟩ := ih h
    simp only [not_or,not_le] at hid hres
    refine ⟨?_,?_,?_⟩
    · intro b hb
      rcases List.mem_cons.mp hb with rfl | hb
      · exact ⟨by omega,by omega,hid.2.2,hres.1⟩
      · obtain ⟨h1,h2,h3,h4⟩ := hall b hb
        exact ⟨h1,h2,fun hmem => h3 (List.mem_cons_of_mem _ hmem),h4⟩
    · rw [List.map_cons,List.nodup_cons]
      refine ⟨?_,hnodup⟩
      intro hmem
      obtain ⟨b,hb,hbid⟩ := List.mem_map.mp hmem
      exact (hall b hb).2.2.1 (hbid ▸ List.mem_cons_self)
    · intro _
      have hsum : reserved (a :: attempts) =
        a.reservedNanoUSD+reserved attempts := by simp [reserved]
      have := htotal (by omega)
      omega

/-- What a validated ledger is like. -/
structure Valid (s : Snapshot) : Prop where
  fits : s.Fits
  counters : 0 ≤ s.settled ∧ 0 ≤ s.retainedAttempts ∧ 0 ≤ s.refusedAttempts
  few : s.inFlight.length ≤ maxInFlight
  known : ∀ a ∈ s.inFlight, 0 < a.id ∧ a.id < s.nextID
  distinct : s.ids.Nodup

lemma valid_of_validate {s : Snapshot} (h : validate s = .ok ()) : Valid s := by
  unfold validate at h
  split_ifs at h with hschema hneg hlen hover
  obtain ⟨hall,hnodup,htotal⟩ := validateInFlight_ok h
  simp only [not_or,not_lt] at hneg hlen hover
  refine ⟨⟨hneg.1,hneg.2.1,fun a ha => (hall a ha).2.2.2,?_⟩,
    ⟨hneg.2.2.1,hneg.2.2.2.1,hneg.2.2.2.2.1⟩,
    hlen,fun a ha => ⟨(hall a ha).1,(hall a ha).2.1⟩,hnodup⟩
  exact htotal (by omega)

/-- Counters that are numbers of 64 bits. -/
def Small (s : Snapshot) : Prop :=
  s.settled ≤ maxInt64 ∧ s.retainedAttempts ≤ maxInt64 ∧ s.refusedAttempts ≤ maxInt64

def resolvedAs (how : How) (resolved : List (ℕ × How)) : ℕ := resolved.countP (fun r => r.2 = how)

/-- What an operation that goes through does to the ledger: it keeps within the limit, moves
attempts from issued to resolved, and counts them. -/
structure Step (limit : ℤ) (s s' : Snapshot) (issued : List ℕ)
    (resolved : List (ℕ × How)) : Prop where
  cap : s'.total ≤ limit
  account : (resolved.map Prod.fst ++ s'.ids).Perm (s.ids ++ issued)
  nextID : s'.nextID = s.nextID+issued.length
  issued : issued = [] ∨ issued = [s.nextID]
  settled : s'.settled = s.settled+resolvedAs .settled resolved
  retained : s'.retainedAttempts = s.retainedAttempts+resolvedAs .retained resolved
  refused : s'.refusedAttempts = s.refusedAttempts+resolvedAs .refused resolved
  small : Small s'

/-! Taking one attempt out of flight. -/

lemma reserved_perm {l l' : List Attempt} (h : l.Perm l') : reserved l = reserved l' :=
  (h.map _).sum_eq

lemma find_spec {s : Snapshot} {id : ℕ} {a : Attempt} (h : s.find id = some a) :
    a.id = id ∧ s.inFlight.Perm (a :: (s.remove id).inFlight) := by
  obtain ⟨hid,before,after,hsplit,hbefore⟩ := List.find?_eq_some_iff_append.mp h
  refine ⟨by simpa using hid,?_⟩
  have herase : (s.remove id).inFlight = before ++ after := by
    simp only [remove,hsplit]
    rw [List.eraseP_append_right _ (by simpa using hbefore),
      List.eraseP_cons_of_pos (by simpa using hid)]
  rw [herase,hsplit]
  exact List.perm_middle

section remove
variable {s : Snapshot} {id : ℕ} {a : Attempt}

lemma total_remove (h : s.find id = some a) : (s.remove id).total = s.total-a.reservedNanoUSD := by
  have hperm := reserved_perm (find_spec h).2
  have hsum : reserved (a :: (s.remove id).inFlight) = a.reservedNanoUSD+reserved
    (s.remove id).inFlight := by
    simp [reserved]
  unfold total
  rw [hperm,hsum]
  change s.spentNanoUSD+s.retainedNanoUSD+_ = _
  ring

lemma ids_remove (h : s.find id = some a) : (id :: (s.remove id).ids).Perm s.ids := by
  obtain ⟨hid,hperm⟩ := find_spec h
  have := (hperm.map Attempt.id).symm
  rwa [List.map_cons,hid] at this

lemma find_positive (hs : Valid s) (h : s.find id = some a) : 0 < a.reservedNanoUSD :=
  hs.fits.positive a (List.mem_of_find?_eq_some h)

lemma fits_remove (hs : Valid s) (h : s.find id = some a) : (s.remove id).Fits := by
  refine ⟨hs.fits.spent,hs.fits.retained,?_,?_⟩
  · intro b hb
    exact hs.fits.positive b (List.mem_of_mem_eraseP hb)
  · rw [total_remove h]
    have := find_positive hs h
    have := hs.fits.total
    omega

/-- Retaining an amount of an attempt that has left. -/
lemma step_retain {limit amount : ℤ} {s' : Snapshot} (hs : Valid s) (hsmall : Small s)
    (hcap : s.total ≤ limit)
    (h : s.find id = some a) (hs' : Valid s') (heq : s' = (s.remove id).retainAmount amount)
    (hamount : 0 ≤ amount) (hle : amount ≤ a.reservedNanoUSD) :
    Step limit s s' [] [(id,.retained)] := by
  have hfits := fits_remove hs h
  have htotal := total_remove h
  have hpos := find_positive hs h
  have hmax := hs.fits.total
  have hretained : s'.retainedNanoUSD = s.retainedNanoUSD+amount := by
    rw [heq]
    have hnn := reserved_nonneg hfits.positive
    have hsp := hs.fits.spent
    have hre := hs.fits.retained
    change int64 (s.retainedNanoUSD+amount) = _
    have hsum : (s.remove id).total = s.spentNanoUSD+s.retainedNanoUSD+reserved
      (s.remove id).inFlight := rfl
    exact int64_eq (by omega) (by omega)
  have hcount : s'.retainedAttempts = s.retainedAttempts+1 := by
    have hnn := hs'.counters.2.1
    rw [heq] at hnn ⊢
    exact int64_counter (k := 1) hs.counters.2.1 hsmall.2.1 (by norm_num) hnn
  refine ⟨?_,?_,by rw [heq]; rfl,.inl rfl,by rw [heq]; simp [resolvedAs,retainAmount,remove],?_,
    by rw [heq]; simp [resolvedAs,retainAmount,remove],?_⟩
  · have hsum : s'.total = (s.remove id).total+amount := by
      unfold total
      rw [hretained,heq]
      change s.spentNanoUSD+_+_ = s.spentNanoUSD+s.retainedNanoUSD+_+_
      simp only [retainAmount]
      ring
    omega
  · rw [heq,List.append_nil]
    exact ids_remove h
  · rw [hcount]
    simp [resolvedAs]
  · refine ⟨by rw [heq]; exact hsmall.1,?_,by rw [heq]; exact hsmall.2.2⟩
    rw [heq]
    exact int64_le _

end remove

section steps
variable {limit : ℤ} {s s' : Snapshot}

/-- An operation that changes nothing a book counts. -/
lemma step_same (hcap : s'.total ≤ limit) (hids : s'.ids = s.ids) (hnext : s'.nextID = s.nextID)
    (hsettled : s'.settled = s.settled) (hretained : s'.retainedAttempts = s.retainedAttempts)
    (hrefused : s'.refusedAttempts = s.refusedAttempts) (hsmall : Small s) :
    Step limit s s' [] [] := by
  refine ⟨hcap,?_,hnext,.inl rfl,by simp [hsettled,resolvedAs],by simp [hretained,resolvedAs],
    by simp [hrefused,resolvedAs],?_⟩
  · rw [hids,List.append_nil]
    exact List.Perm.refl _
  · unfold Small at *
    rwa [hsettled,hretained,hrefused]

/-- An accepted attempt stays in flight with its reservation. -/
lemma step_accepted {id : ℕ} (hsmall : Small s) (hcap : s.total ≤ limit)
    (heq : s' = { s with
      inFlight := s.inFlight.map (fun b => if b.id = id then { b with state := .accepted }
        else b) }) :
    Step limit s s' [] [] := by
  have hids : s'.ids = s.ids := by
    rw [heq]
    simp only [ids,List.map_map]
    apply List.map_congr_left
    intro b _
    simp only [Function.comp]
    split_ifs <;> rfl
  have hreserved : reserved s'.inFlight = reserved s.inFlight := by
    rw [heq]
    simp only [reserved,List.map_map]
    congr 1
    apply List.map_congr_left
    intro b _
    simp only [Function.comp]
    split_ifs <;> rfl
  have htotal : s'.total = s.total := by
    unfold total
    rw [hreserved,heq]
  apply step_same (by omega) hids <;> first | exact hsmall | rw [heq]

lemma step_transportResult {id : ℕ} {state : AttemptState} {refund : Bool} (hs : Valid s)
    (hsmall : Small s)
    (hcap : s.total ≤ limit) (h : transportResult id state refund s = .ok s') (hs' : Valid s') :
    Step limit s s' [] (resolutions s (.transportResult id state refund)) := by
  unfold transportResult at h
  cases ha : s.find id with
  | none =>
    rw [ha] at h
    cases h
  | some a =>
    rw [ha] at h
    dsimp only at h
    have hpos := find_positive hs ha
    have htotal := total_remove ha
    by_cases hstate : a.state ≠ .reserved
    · rw [if_pos hstate] at h
      cases h
    rw [if_neg hstate] at h
    cases state with
    | notSent =>
      cases h
      refine ⟨by omega,?_,rfl,.inl rfl,by simp [resolutions,resolvedAs,remove],
        by simp [resolutions,resolvedAs,remove],by simp [resolutions,resolvedAs,remove],hsmall⟩
      rw [List.append_nil]
      exact ids_remove ha
    | rejected =>
      cases refund with
      | true =>
        obtain rfl := Except.ok.inj h
        have hcount : int64 (s.refusedAttempts+1) = s.refusedAttempts+1 :=
          int64_counter (k := 1) hs.counters.2.2 hsmall.2.2 (by norm_num) hs'.counters.2.2
        refine ⟨?_,?_,rfl,.inl rfl,by simp [resolutions,resolvedAs,remove],
          by simp [resolutions,resolvedAs,remove],?_,hsmall.1,hsmall.2.1,int64_le _⟩
        · change (s.remove id).total ≤ limit
          omega
        · rw [List.append_nil]
          exact ids_remove ha
        · simp only [resolutions,resolvedAs]
          rw [hcount]
          simp
      | false =>
        exact step_retain hs hsmall hcap ha hs' (Except.ok.inj h).symm hpos.le le_rfl
    | accepted => exact step_accepted hsmall hcap (Except.ok.inj h).symm
    | unknown => exact step_retain hs hsmall hcap ha hs' (Except.ok.inj h).symm hpos.le le_rfl
    | other name => cases h

lemma step_settle {id : ℕ} {charge : ℤ} (hs : Valid s) (hsmall : Small s) (hcap : s.total ≤ limit)
    (hwithin : (Op.settle id charge).Within s) (h : settle id charge s = .ok s') (hs' : Valid s') :
    Step limit s s' [] [(id,.settled)] := by
  unfold settle at h
  by_cases hneg : charge < 0
  · rw [if_pos hneg] at h
    cases h
  rw [if_neg hneg] at h
  cases ha : s.find id with
  | none =>
    rw [ha] at h
    cases h
  | some a =>
    rw [ha] at h
    dsimp only at h
    have hle := hwithin a ha
    have htotal := total_remove ha
    split_ifs at h with hstate hover hrun
    · omega
    · obtain rfl := Except.ok.inj h
      have hcount : int64 (s.settled+1) = s.settled+1 :=
        int64_counter (k := 1) hs.counters.1 hsmall.1 (by norm_num) hs'.counters.1
      have hspent : int64 (s.spentNanoUSD+charge) = s.spentNanoUSD+charge := by
        have hfits := fits_remove hs ha
        have hnn := reserved_nonneg hfits.positive
        have hmax := hs.fits.total
        have hsp := hs.fits.spent
        have hre := hs.fits.retained
        have hsum : (s.remove id).total = s.spentNanoUSD+s.retainedNanoUSD+reserved
          (s.remove id).inFlight := rfl
        exact int64_eq (by omega) (by omega)
      refine ⟨?_,?_,rfl,.inl rfl,?_,by simp [resolvedAs,remove],by simp [resolvedAs,remove],
        int64_le _,hsmall.2.1,hsmall.2.2⟩
      · have hsum : (s.remove id).total = s.spentNanoUSD+s.retainedNanoUSD+reserved
          (s.remove id).inFlight := rfl
        change int64 (s.spentNanoUSD+charge)+s.retainedNanoUSD+reserved
          (s.remove id).inFlight ≤ limit
        omega
      · rw [List.append_nil]
        exact ids_remove ha
      · change int64 (s.settled+1) = _
        rw [hcount]
        simp [resolvedAs]

lemma step_retainAt {id : ℕ} {bound : ℤ} (hs : Valid s) (hsmall : Small s) (hcap : s.total ≤ limit)
    (hwithin : (Op.retainAt id bound).Within s) (h : retainAt id bound s = .ok s')
    (hs' : Valid s') :
    Step limit s s' [] (if (s.find id).isSome then [(id,.retained)] else []) := by
  unfold retainAt at h
  cases ha : s.find id with
  | none =>
    rw [ha] at h
    cases h
    exact step_same hcap rfl rfl rfl rfl rfl hsmall
  | some a =>
    rw [ha] at h
    dsimp only at h
    have hpos := find_positive hs ha
    have hle := hwithin a ha
    split_ifs at h with hbound hover hover
    · exact step_retain hs hsmall hcap ha hs' (Except.ok.inj h).symm hbound hle
    · exact step_retain hs hsmall hcap ha hs' (Except.ok.inj h).symm hpos.le le_rfl

/-! Reclaiming the attempts of processes that have exited. -/

lemma foldl_retainAmount {dead : List Attempt} (hpos : ∀ a ∈ dead, 0 < a.reservedNanoUSD)
    (hre : 0 ≤ s.retainedNanoUSD) (hmax : s.retainedNanoUSD+reserved dead ≤ maxInt64)
    (hcount : 0 ≤ s.retainedAttempts ∧ s.retainedAttempts ≤ maxInt64) :
    dead.foldl (fun s a => s.retainAmount a.reservedNanoUSD) s =
      { s with
        retainedNanoUSD := s.retainedNanoUSD+reserved dead
        retainedAttempts := int64 (s.retainedAttempts+dead.length) } := by
  induction dead using List.reverseRecOn with
  | nil =>
    have hsame : int64 s.retainedAttempts = s.retainedAttempts := int64_eq (by omega) hcount.2
    simp [reserved,hsame]
  | append_singleton dead a ih =>
    obtain ⟨hdead,ha⟩ := List.forall_mem_append.mp hpos
    have ha := ha a List.mem_cons_self
    have hsum : reserved (dead ++ [a]) = reserved dead+a.reservedNanoUSD := by simp [reserved]
    have hnn := reserved_nonneg hdead
    rw [hsum] at hmax ⊢
    rw [List.foldl_concat,ih hdead (by omega),retainAmount]
    simp only [List.length_append,List.length_singleton,Nat.cast_add,Nat.cast_one]
    rw [int64_eq (by omega) (by omega),int64_add_int64]
    ring_nf

section reclaim
variable {self : ℤ} {gone : ℤ → Bool}

lemma reclaim_eq (hs : Valid s) (hsmall : Small s) : reclaimDead self gone s =
    { s with
      retainedNanoUSD := s.retainedNanoUSD+reserved (s.inFlight.filter (Attempt.dead self gone))
      retainedAttempts := int64
        (s.retainedAttempts+(s.inFlight.filter (Attempt.dead self gone)).length)
      inFlight := s.inFlight.filter (fun a => !a.dead self gone) } := by
  have hperm := reserved_perm (List.filter_append_perm (Attempt.dead self gone) s.inFlight)
  have hsum : ∀ l l' : List Attempt, reserved (l ++ l') = reserved l+reserved l' := by
    intro l l'
    simp [reserved]
  rw [hsum] at hperm
  have hpos := hs.fits.positive
  have hkept : 0 ≤ reserved (s.inFlight.filter (fun a => !a.dead self gone)) :=
    reserved_nonneg (fun a ha => hpos a (List.mem_of_mem_filter ha))
  have hmax := hs.fits.total
  have hsp := hs.fits.spent
  unfold total at hmax
  rw [reclaimDead,foldl_retainAmount (fun a ha =>
    hpos a (List.mem_of_mem_filter ha)) hs.fits.retained
    (by omega) ⟨hs.counters.2.1,hsmall.2.1⟩]

lemma total_reclaim (self : ℤ) (gone : ℤ → Bool) (hs : Valid s) (hsmall : Small s) :
    (reclaimDead self gone s).total = s.total := by
  have hperm := reserved_perm (List.filter_append_perm (Attempt.dead self gone) s.inFlight)
  rw [reclaim_eq hs hsmall]
  simp only [total,reserved,List.map_append,List.sum_append] at hperm ⊢
  omega

lemma fits_reclaim (self : ℤ) (gone : ℤ → Bool) (hs : Valid s) (hsmall : Small s) :
    (reclaimDead self gone s).Fits := by
  have htotal := total_reclaim self gone hs hsmall
  refine ⟨?_,?_,?_,by rw [htotal]; exact hs.fits.total⟩
  · rw [reclaim_eq hs hsmall]
    exact hs.fits.spent
  · rw [reclaim_eq hs hsmall]
    have hre := hs.fits.retained
    have hdead : 0 ≤ reserved (s.inFlight.filter (Attempt.dead self gone)) :=
      reserved_nonneg (fun a ha => hs.fits.positive a (List.mem_of_mem_filter ha))
    dsimp only
    omega
  · intro a ha
    rw [reclaim_eq hs hsmall] at ha
    exact hs.fits.positive a (List.mem_of_mem_filter ha)

/-- The retained count after a reclaim, once it has been found not to be negative. -/
lemma retainedAttempts_reclaim (hs : Valid s) (hsmall : Small s)
    (hnn : 0 ≤ (reclaimDead self gone s).retainedAttempts) :
    (reclaimDead self gone s).retainedAttempts =
      s.retainedAttempts+(s.inFlight.filter (Attempt.dead self gone)).length := by
  rw [reclaim_eq hs hsmall] at hnn ⊢
  have hfew : (s.inFlight.filter (Attempt.dead self gone)).length ≤ 2^62 := by
    have := List.length_filter_le (Attempt.dead self gone) s.inFlight
    have := hs.few
    unfold maxInFlight at *
    omega
  exact int64_counter hs.counters.2.1 hsmall.2.1 hfew hnn

lemma resolvedAs_dead (how : How) (dead : List Attempt) :
    resolvedAs how (dead.map (fun a => (a.id,.retained))) = if how = .retained then
    dead.length else 0 := by
  simp only [resolvedAs,List.countP_map]
  by_cases hhow : how = .retained
  · rw [if_pos hhow,List.countP_eq_length]
    simp [hhow]
  · rw [if_neg hhow,List.countP_eq_zero]
    intro a _
    simpa using fun h => hhow h.symm

/-- A reclaim by itself, or before a reservation that appends an attempt. -/
lemma step_reclaim {issued : List ℕ} (hs : Valid s) (hsmall : Small s) (hs' : Valid s')
    (hcap : s'.total ≤ limit)
    (hids : s'.ids = (reclaimDead self gone s).ids ++ issued)
    (hnext : s'.nextID = s.nextID+issued.length)
    (hissued : issued = [] ∨ issued = [s.nextID]) (hsettled : s'.settled = s.settled)
    (hretained : s'.retainedAttempts = (reclaimDead self gone s).retainedAttempts)
    (hrefused : s'.refusedAttempts = s.refusedAttempts) :
    Step limit s s' issued ((s.inFlight.filter (Attempt.dead self gone)).map
      (fun a => (a.id,.retained))) := by
  have hnn := hs'.counters.2.1
  rw [hretained] at hnn
  have hcount := retainedAttempts_reclaim hs hsmall hnn
  refine ⟨hcap,?_,hnext,hissued,by simp [hsettled,resolvedAs_dead],?_,
    by simp [hrefused,resolvedAs_dead],?_⟩
  · have hperm := (List.filter_append_perm (Attempt.dead self gone) s.inFlight).map Attempt.id
    have hkept : (reclaimDead self gone s).ids = (s.inFlight.filter
      (fun a => !a.dead self gone)).map Attempt.id := by
      rw [reclaim_eq hs hsmall]
      rfl
    rw [hids,hkept,List.map_map,← List.append_assoc]
    rw [List.map_append] at hperm
    exact hperm.append_right issued
  · rw [hretained,hcount,resolvedAs_dead,if_pos rfl]
  · refine ⟨by rw [hsettled]; exact hsmall.1,?_,by rw [hrefused]; exact hsmall.2.2⟩
    rw [hretained,reclaim_eq hs hsmall]
    exact int64_le _

lemma step_reconcile (hs : Valid s) (hsmall : Small s) (hcap : s.total ≤ limit)
    (heq : s' = reclaimDead self gone s) (hs' : Valid s') :
    Step limit s s' [] (resolutions s (.reconcile self gone)) := by
  have htotal := total_reclaim self gone hs hsmall
  apply step_reclaim hs hsmall hs'
  · rw [heq,htotal]
    exact hcap
  · rw [heq,List.append_nil]
  · rw [heq,reclaim_eq hs hsmall]
    rfl
  · exact .inl rfl
  · rw [heq,reclaim_eq hs hsmall]
  · rw [heq]
  · rw [heq,reclaim_eq hs hsmall]

lemma step_reserve {now amount : ℤ} {model : String} (hlimit : limit ≤ 1000000000000000)
    (hs : Valid s)
    (hsmall : Small s) (hcap : s.total ≤ limit)
    (h : reserve limit self gone now model amount s = .ok s')
    (hs' : Valid s') : Step limit s s' [s.nextID]
    (resolutions s (.reserve self gone now model amount)) := by
  unfold reserve at h
  dsimp only at h
  split_ifs at h with hbad hfull hexhausted
  have hfits := fits_reclaim self gone hs hsmall
  have htotal := total_reclaim self gone hs hsmall
  have hnext : (reclaimDead self gone s).nextID = s.nextID := by rw [reclaim_eq hs hsmall]
  have hnn : 0 ≤ s.total := by
    have := reserved_nonneg hs.fits.positive
    have := hs.fits.spent
    have := hs.fits.retained
    unfold total
    omega
  have hheadroom : int64 (limit-(reclaimDead self gone s).committedNanoUSD) = limit-s.total := by
    rw [committed_eq hfits,htotal]
    exact int64_eq (by omega) (by unfold maxInt64; omega)
  rw [hheadroom] at hexhausted
  obtain rfl := Except.ok.inj h
  have hissue : ((reclaimDead self gone s).nextID+1)%2^64 = s.nextID+1 := by
    have hknown := (hs'.known ⟨(reclaimDead self gone s).nextID,model,.reserved,amount,self,now⟩
      (List.mem_append_right _ List.mem_cons_self)).2
    dsimp only at hknown
    rw [hnext] at hknown ⊢
    omega
  apply step_reclaim hs hsmall hs'
  · have hsum : reserved ((reclaimDead self gone s).inFlight ++
        [⟨(reclaimDead self gone s).nextID,model,.reserved,amount,self,now⟩]) =
        reserved (reclaimDead self gone s).inFlight+amount := by simp [reserved]
    unfold total at htotal ⊢
    rw [hsum]
    dsimp only
    unfold total at hexhausted
    omega
  · simp [ids,hnext]
  · exact hissue
  · exact .inr rfl
  · rw [reclaim_eq hs hsmall]
  · rfl
  · rw [reclaim_eq hs hsmall]

end reclaim

end steps

/-- A change that is written was made and checked. -/
lemma update_ok {limit : ℤ} {s s' : Snapshot} {op : Op} (h : update limit s op = .ok s') :
    mutate limit s op = .ok s' ∧ validate s' = .ok () := by
  unfold update at h
  cases hm : mutate limit s op with
  | error e =>
    rw [hm] at h
    cases h
  | ok next =>
    rw [hm] at h
    change (do validate next; return next) = Except.ok s' at h
    cases hv : validate next with
    | error e =>
      rw [hv] at h
      cases h
    | ok u =>
      rw [hv] at h
      obtain rfl := Except.ok.inj h
      exact ⟨rfl,hv⟩

/-- Every operation that goes through is such a step. -/
theorem step_of_update {limit : Limit} {s s' : Snapshot} {op : Op} (hs : Valid s) (hsmall : Small s)
    (hcap : s.total ≤ limit.nanoUSD) (hwithin : op.Within s)
    (h : update limit.nanoUSD s op = .ok s') :
    Step limit.nanoUSD s s' (issues s op) (resolutions s op) ∧ validate s' = .ok () := by
  obtain ⟨hm,hv⟩ := update_ok h
  refine ⟨?_,hv⟩
  have hs' := valid_of_validate hv
  cases op with
  | reserve self gone now model amount => exact step_reserve limit.bounded hs hsmall hcap hm hs'
  | transportResult id state refund => exact step_transportResult hs hsmall hcap hm hs'
  | settle id charge => exact step_settle hs hsmall hcap hwithin hm hs'
  | retain id =>
    apply step_retainAt hs hsmall hcap _ hm hs'
    intro a ha
    have := find_positive hs ha
    omega
  | retainAt id bound => exact step_retainAt hs hsmall hcap hwithin hm hs'
  | reconcile self gone => exact step_reconcile hs hsmall hcap (Except.ok.inj hm).symm hs'

/-- The invariant of a book: a valid ledger within the limit, whose attempts in flight are those
issued and not resolved, with every resolution counted. -/
structure Kept (limit : Limit) (b : Book) : Prop where
  valid : validate b.ledger = .ok ()
  small : Small b.ledger
  cap : b.ledger.total ≤ limit.nanoUSD
  issued : b.issued = List.range' 1 b.issued.length
  nextID : b.ledger.nextID = b.issued.length+1
  account : (b.resolved.map Prod.fst ++ b.ledger.ids).Perm b.issued
  settled : b.ledger.settled = resolvedAs .settled b.resolved
  retained : b.ledger.retainedAttempts = resolvedAs .retained b.resolved
  refused : b.ledger.refusedAttempts = resolvedAs .refused b.resolved

lemma kept_empty (limit : Limit) : Kept limit Book.empty :=
  ⟨rfl,⟨by decide,by decide,by decide⟩,limit.positive.le,rfl,rfl,List.Perm.refl _,rfl,rfl,rfl⟩

lemma Kept.after {limit : Limit} {b : Book} {r : Request} (hb : Kept limit b)
    (hwithin : r.op.Within b.ledger) :
    Kept limit (b.after limit r) := by
  unfold Book.after
  by_cases hgranted : r.granted = true
  swap
  · rw [if_neg hgranted]
    exact hb
  rw [if_pos hgranted]
  cases hu : update limit.nanoUSD b.ledger r.op with
  | error e => exact hb
  | ok next =>
    obtain ⟨hstep,hv⟩ := step_of_update (valid_of_validate hb.valid) hb.small hb.cap hwithin hu
    have hcount : ∀ how, resolvedAs how (b.resolved ++ resolutions b.ledger r.op) =
        resolvedAs how b.resolved+resolvedAs how (resolutions b.ledger r.op) := by
      intro how
      exact List.countP_append
    refine ⟨hv,hstep.small,hstep.cap,?_,?_,?_,?_,?_,?_⟩
    · dsimp only
      rcases hstep.issued with hnone | hone
      · rw [hnone,List.append_nil]
        exact hb.issued
      · rw [hone,List.length_append,List.length_singleton,List.range'_concat,← hb.issued,hb.nextID]
        ring_nf
    · dsimp only
      rw [hstep.nextID,hb.nextID,List.length_append]
      ring
    · dsimp only
      have hleft : ((b.resolved ++ resolutions b.ledger r.op).map Prod.fst ++ next.ids).Perm
          (b.resolved.map Prod.fst ++ (b.ledger.ids ++ issues b.ledger r.op)) := by
        rw [List.map_append,List.append_assoc]
        exact hstep.account.append_left _
      refine hleft.trans ?_
      rw [← List.append_assoc]
      exact hb.account.append_right _
    · rw [hstep.settled,hb.settled,hcount,Nat.cast_add]
    · rw [hstep.retained,hb.retained,hcount,Nat.cast_add]
    · rw [hstep.refused,hb.refused,hcount,Nat.cast_add]

lemma Kept.foldl {limit : Limit} {requests : List Request} {b : Book} (hb : Kept limit b)
    (hwithin : Within limit b requests) : Kept limit (requests.foldl (Book.after limit) b) := by
  induction requests generalizing b with
  | nil => exact hb
  | cons r requests ih => exact ih (hb.after hwithin.1) hwithin.2

lemma resolved_length (resolved : List (ℕ × How)) : resolved.length =
    resolvedAs .settled resolved+resolvedAs .retained resolved+resolvedAs .refused resolved+
      resolvedAs .notSent resolved := by
  induction resolved with
  | nil => rfl
  | cons r resolved ih =>
    obtain ⟨id,how⟩ := r
    cases how <;> simp [resolvedAs] at ih ⊢ <;> omega

/-- Over every interleaving of requests that stay within the reservations, the committed total is at
most the limit, the ledger validates, no identifier is issued twice, and every issued one is in
flight or resolved, and resolved only once; so the counts add up to the identifiers issued. -/
theorem ledger_keeps_cap (limit : Limit) (requests : List Request)
    (hwithin : Within limit Book.empty requests) :
    let b := Book.run limit requests
    b.ledger.committedNanoUSD ≤ limit.nanoUSD ∧ validate b.ledger = .ok () ∧ b.issued.Nodup ∧
      (b.resolved.map Prod.fst).Nodup ∧ (∀ id ∈ b.issued, id ∈ b.resolved.map Prod.fst ↔
        id ∉ b.ledger.ids) ∧
      (∀ id ∈ b.resolved.map Prod.fst, id ∈ b.issued) ∧
      b.ledger.settled = resolvedAs .settled b.resolved ∧
      b.ledger.retainedAttempts = resolvedAs .retained b.resolved ∧
      b.ledger.refusedAttempts = resolvedAs .refused b.resolved ∧
      b.ledger.settled+b.ledger.retainedAttempts+b.ledger.refusedAttempts+
      resolvedAs .notSent b.resolved+
        b.ledger.inFlight.length = b.ledger.nextID-1 := by
  intro b
  have hk : Kept limit b := (kept_empty limit).foldl hwithin
  have hvalid := valid_of_validate hk.valid
  have hnodup : b.issued.Nodup := by
    rw [hk.issued]
    exact List.nodup_range'
  have hall : (b.resolved.map Prod.fst ++ b.ledger.ids).Nodup := hk.account.nodup_iff.mpr hnodup
  refine ⟨?_,hk.valid,hnodup,(List.nodup_append.mp hall).1,?_,?_,hk.settled,hk.retained,
    hk.refused,?_⟩
  · rw [committed_eq hvalid.fits]
    exact hk.cap
  · intro id hid
    have hdisjoint := (List.nodup_append.mp hall).2.2
    constructor
    · intro hr hf
      exact hdisjoint id hr id hf rfl
    · intro hf
      rcases List.mem_append.mp (hk.account.mem_iff.mpr hid) with hr | hf'
      · exact hr
      · exact (hf hf').elim
  · intro id hid
    exact hk.account.mem_iff.mp (List.mem_append_left _ hid)
  · have hlength := hk.account.length_eq
    rw [List.length_append,List.length_map,resolved_length] at hlength
    have hids : b.ledger.ids.length = b.ledger.inFlight.length := List.length_map _
    rw [hk.settled,hk.retained,hk.refused,hk.nextID]
    push_cast
    omega

/-- One attempt that is sent, accepted and settled below its reservation, and one whose process
exits and that a later reservation reclaims. -/
def twoProcesses : List Request :=
  [⟨.reserve 1 (fun _ => false) 0 "m" 100,true⟩,⟨.transportResult 1 .accepted false,true⟩,
   ⟨.reserve 2 (fun _ => false) 1 "m" 300,true⟩,⟨.settle 1 60,true⟩,
   ⟨.reserve 3 (fun pid => pid = 2) 2 "m" 200,true⟩]

def dollar : Limit := ⟨1000000000,by decide,by decide⟩

theorem ledger_keeps_cap_twoProcesses : Within dollar Book.empty twoProcesses ∧
    (Book.run dollar twoProcesses).resolved = [(1,.settled),(2,.retained)] ∧
    (Book.run dollar twoProcesses).ledger.committedNanoUSD = 560 ∧
    (Book.run dollar twoProcesses).ledger.committedNanoUSD ≤ dollar.nanoUSD := by
  have hwithin : Within dollar Book.empty twoProcesses := by
    refine ⟨trivial,trivial,trivial,?_,trivial,trivial⟩
    intro a ha
    have hreserved : ((Book.run dollar
      (twoProcesses.take 3)).ledger.find 1).map Attempt.reservedNanoUSD =
        some 100 := by decide
    obtain ⟨a',ha',hres⟩ := Option.map_eq_some_iff.mp hreserved
    obtain rfl := Option.some.inj (ha'.symm.trans ha)
    omega
  exact ⟨hwithin,by decide,by decide,(ledger_keeps_cap dollar twoProcesses hwithin).1⟩

end Manvi.Budget
