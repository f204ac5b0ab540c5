import Mathlib

/-! The ledger that caps what a provider account can spend, as one file that any number of processes
read, change and write back under a lock. -/
namespace Manvi.Budget

/-- The largest signed number of 64 bits. -/
def maxInt64 : ℤ := 2^63-1

/-- Signed arithmetic of 64 bits wraps. -/
def int64 (x : ℤ) : ℤ := x.bmod (2^64)

def schemaVersion : ℤ := 2

def maxInFlight : ℕ := 256

inductive AttemptPhase where
  | reserved
  | accepted
  | other (name : String)
  deriving Repr, DecidableEq

/-- One in-flight attempt holding a reservation. -/
structure Attempt where
  id : ℕ
  model : String
  state : AttemptPhase
  reservedNanoUSD : ℤ
  pid : ℤ
  startedUnix : ℤ
  deriving Repr, DecidableEq

/-- The persisted ledger. -/
structure Snapshot where
  schemaVersion : ℤ
  spentNanoUSD : ℤ
  retainedNanoUSD : ℤ
  settled : ℤ
  retainedAttempts : ℤ
  refusedAttempts : ℤ
  overruns : ℤ
  nextID : ℕ
  inFlight : List Attempt
  deriving Repr, DecidableEq

/-- What a missing file reads as. -/
def Snapshot.empty : Snapshot := ⟨Budget.schemaVersion,0,0,0,0,0,0,1,[]⟩

namespace Snapshot

def inFlightNanoUSD (s : Snapshot) : ℤ :=
  s.inFlight.foldl (fun total a => int64 (total+a.reservedNanoUSD)) 0

/-- Everything counted against the limit. -/
def committedNanoUSD (s : Snapshot) : ℤ :=
  int64 (int64 (s.spentNanoUSD+s.retainedNanoUSD)+s.inFlightNanoUSD)

def find (s : Snapshot) (id : ℕ) : Option Attempt := s.inFlight.find? (fun a => a.id = id)

/-- Take the first attempt of an identifier out of flight. -/
def remove (s : Snapshot) (id : ℕ) : Snapshot :=
  { s with inFlight := s.inFlight.eraseP (fun a => a.id = id) }

/-- Count an amount as retained. -/
def retainAmount (s : Snapshot) (amount : ℤ) : Snapshot :=
  { s with
    retainedNanoUSD := int64 (s.retainedNanoUSD+amount),
    retainedAttempts := int64 (s.retainedAttempts+1) }

end Snapshot

/-- The in-flight part of a validation: known and distinct identifiers, positive reservations of a
named model, and a total that does not overflow. -/
def validateInFlight (nextID : ℕ) : List ℕ → ℤ → List Attempt → Except String Unit
  | _,_,[] => .ok ()
  | seen,total,a :: rest =>
    if a.id = 0 ∨ a.id ≥ nextID ∨ a.id ∈ seen then
      .error s!"budget: invalid or duplicate attempt id {a.id}"
    else match a.state with
      | .other name => .error s!"budget: attempt {a.id} has invalid state {repr name}"
      | _ =>
        if a.reservedNanoUSD ≤ 0 ∨ a.model = "" then
          .error s!"budget: attempt {a.id} must name its model and hold a reservation"
        else if total > maxInt64-a.reservedNanoUSD then .error "budget: ledger total overflows"
        else validateInFlight nextID (a.id :: seen) (total+a.reservedNanoUSD) rest

def validate (s : Snapshot) : Except String Unit :=
  if s.schemaVersion ≠ schemaVersion then
    .error s!"budget: ledger schema {s.schemaVersion}, want {schemaVersion}"
  else if s.spentNanoUSD < 0 ∨ s.retainedNanoUSD < 0 ∨ s.settled < 0 ∨ s.retainedAttempts < 0 ∨
      s.refusedAttempts < 0 ∨ s.overruns < 0 then
    .error "budget: negative ledger total"
  else if s.inFlight.length > maxInFlight then
    .error s!"budget: {s.inFlight.length} in-flight attempts exceeds {maxInFlight}"
  else if s.spentNanoUSD > maxInt64-s.retainedNanoUSD then .error "budget: ledger total overflows"
  else validateInFlight s.nextID [] (s.spentNanoUSD+s.retainedNanoUSD) s.inFlight

/-- Whether an attempt's process is another one that has exited, as far as can be told. -/
def Attempt.dead (self : ℤ) (gone : ℤ → Bool) (a : Attempt) : Bool := a.pid ≠ self && gone a.pid

/-- Retain every attempt whose process has exited. -/
def reclaimDead (self : ℤ) (gone : ℤ → Bool) (s : Snapshot) : Snapshot :=
  { (s.inFlight.filter (Attempt.dead self gone)).foldl (fun s a =>
    s.retainAmount a.reservedNanoUSD) s with
    inFlight := s.inFlight.filter (fun a => !a.dead self gone) }

/-- How the transport says an attempt ended. -/
inductive AttemptState where
  | notSent
  | rejected
  | accepted
  | unknown
  | other (name : String)
  deriving Repr, DecidableEq

/-- The changes an operation makes to the ledger, with what it reads of its process. -/
inductive Op where
  | reserve (self : ℤ) (gone : ℤ → Bool) (now : ℤ) (model : String) (amount : ℤ)
  | transportResult (id : ℕ) (state : AttemptState) (refund : Bool)
  | settle (id : ℕ) (charge : ℤ)
  | retain (id : ℕ)
  | retainAt (id : ℕ) (bound : ℤ)
  | reconcile (self : ℤ) (gone : ℤ → Bool)

/-- Nano-dollars as dollars and cents. -/
def usd (nano : ℤ) : String :=
  let cents := (nano.natAbs+5000000)/10000000
  let padded := if cents%100 < 10 then s!"0{cents%100}" else s!"{cents%100}"
  (if nano < 0 then "-" else "") ++ s!"${cents/100}.{padded}"

/-- The cap a handle enforces, as Open admits it. -/
structure Limit where
  nanoUSD : ℤ
  positive : 0 < nanoUSD
  bounded : nanoUSD ≤ 1000000000000000

def reserve (limit : ℤ) (self : ℤ) (gone : ℤ → Bool) (now : ℤ) (model : String) (amount : ℤ)
    (s : Snapshot) :
    Except String Snapshot :=
  if model = "" ∨ amount ≤ 0 then .error "budget: a reservation needs a model and a positive amount"
  else
    let s := reclaimDead self gone s
    if s.inFlight.length ≥ maxInFlight then
      .error s!"budget: {maxInFlight} attempts already in flight"
    else if amount > int64 (limit-s.committedNanoUSD) then
      .error (s!"budget exhausted: this request may cost up to {usd amount}, and {usd s.committedNanoUSD} " ++
        s!"of the {usd limit} limit is already spent or reserved")
    else .ok { s with
      nextID := (s.nextID+1)%2^64
      inFlight := s.inFlight ++ [⟨s.nextID,model,.reserved,amount,self,now⟩] }

def transportResult (id : ℕ) (state : AttemptState) (refund : Bool) (s : Snapshot) :
    Except String Snapshot :=
  match s.find id with
  | none => .error s!"budget: no in-flight attempt {id}"
  | some a =>
    if a.state ≠ .reserved then .error s!"budget: attempt {id} already has a transport result"
    else match state with
      | .notSent => .ok (s.remove id)
      | .rejected =>
        if refund then .ok { s.remove id with refusedAttempts := int64 (s.refusedAttempts+1) }
        else .ok ((s.remove id).retainAmount a.reservedNanoUSD)
      | .accepted => .ok { s with
          inFlight := s.inFlight.map (fun b => if b.id = id then { b with state := .accepted }
            else b) }
      | .unknown => .ok ((s.remove id).retainAmount a.reservedNanoUSD)
      | .other name => .error s!"budget: invalid transport state {repr name}"

def settle (id : ℕ) (charge : ℤ) (s : Snapshot) : Except String Snapshot :=
  if charge < 0 then .error "budget: negative charge"
  else match s.find id with
    | none => .error s!"budget: attempt {id} is not an accepted in-flight attempt"
    | some a =>
      if a.state ≠ .accepted then
        .error s!"budget: attempt {id} is not an accepted in-flight attempt"
      else if charge > maxInt64-s.committedNanoUSD then
        .error "budget: charge overflows ledger total"
      else .ok { s.remove id with
        spentNanoUSD := int64 (s.spentNanoUSD+charge)
        settled := int64 (s.settled+1)
        overruns := if charge > a.reservedNanoUSD then int64 (s.overruns+1) else s.overruns }

/-- Retain an attempt at a bound; a negative one means its reservation. A resolved one is left
alone. -/
def retainAt (id : ℕ) (bound : ℤ) (s : Snapshot) : Except String Snapshot :=
  match s.find id with
  | none => .ok s
  | some a =>
    let amount := if bound ≥ 0 then bound else a.reservedNanoUSD
    if amount > maxInt64-(s.remove id).committedNanoUSD then
      .error "budget: retained amount overflows ledger total"
    else .ok ((s.remove id).retainAmount amount)

def mutate (limit : ℤ) (s : Snapshot) : Op → Except String Snapshot
  | .reserve self gone now model amount => reserve limit self gone now model amount s
  | .transportResult id state refund => transportResult id state refund s
  | .settle id charge => settle id charge s
  | .retain id => retainAt id (-1) s
  | .retainAt id bound => retainAt id bound s
  | .reconcile self gone => .ok (reclaimDead self gone s)

/-- One locked read, change, validation and write. -/
def update (limit : ℤ) (s : Snapshot) (op : Op) : Except String Snapshot := do
  let next ← mutate limit s op
  validate next
  return next

end Manvi.Budget
