import Mathlib

/-! Runs that share one sessions directory: any interleaving of the steps of their saves and loads
of one session. File contents and their digests are arbitrary types. -/
namespace Manvi.Session

/-- The stored generations of a session. -/
abbrev Files (β : Type) := List (ℕ × β)

namespace Files
variable {β : Type}

/-- The newest generation, or zero. -/
def current (files : Files β) : ℕ :=
  files.foldl (fun best f => if f.1 ≤ best then best else f.1) 0

def read (files : Files β) (g : ℕ) : Option β := (files.find? (fun f => f.1 = g)).map Prod.snd

def remove (files : Files β) (g : ℕ) : Files β := files.filter (fun f => f.1 ≠ g)

/-- The newest generation with its contents. -/
def newest (files : Files β) : Option (ℕ × β) :=
  if files.current = 0 then none else (files.read files.current).map (fun b => (files.current,b))

/-- The generations a prune removes, in the order the directory lists their names. -/
def superseded (files : Files β) (keep : ℕ) : List ℕ :=
  ((files.map Prod.fst).filter (fun g => g < keep)).insertionSort (fun a b =>
    toString a ≤ toString b)

end Files

/-- The generation number of what a save read; zero when there was none. -/
def generationOf {β : Type} (base : Option (ℕ × β)) : ℕ := (base.map Prod.fst).getD 0

/-- A generation that a save linked: what the save had read, the digest its run had seen, the
newest generation at that moment, and whether a prune had removed the linked number before. -/
structure Publication (β δ : Type) where
  serial : ℕ
  base : Option (ℕ × β)
  seen : Option δ
  newest : Option (ℕ × β)
  reused : Bool
  deriving DecidableEq

/-- Where a call stands. -/
inductive Phase (β δ : Type) where
  | idle
  | listing (save : Bool) (attempt : ℕ)
  | reading (save : Bool) (attempt g : ℕ)
  | loaded (body : β)
  | comparing (base : Option (ℕ × β))
  | linking (base : Option (ℕ × β))
  | syncing (p : Publication β δ) (body : β)
  | pruneListing (p : Publication β δ)
  | pruning (p : Publication β δ) (rest : List ℕ)

/-- The directory, and each run's digest seen, mutex holder and calls. The lists of numbers
pruned, of links and of saves reported successful only record. -/
structure Disk (β δ : Type) where
  files : Files β
  pruned : List ℕ
  links : List (Publication β δ)
  reported : List (Publication β δ)
  seen : ℕ → Option δ
  lock : ℕ → Option ℕ
  phase : ℕ × ℕ → Phase β δ

/-- What a call does next: begin, take its next step, have that step fail, or link a document. -/
inductive Move (β : Type) where
  | save
  | load
  | next
  | fail
  | link (body : β)

def readAttempts : ℕ := 5

namespace Disk
variable {β δ : Type} [DecidableEq δ]

def empty : Disk β δ := ⟨[],[],[],[],fun _ => none,fun _ => none,fun _ => .idle⟩

def goto (d : Disk β δ) (c : ℕ × ℕ) (phase : Phase β δ) : Disk β δ :=
  { d with phase := Function.update d.phase c phase }

/-- The call returns; a save gives up its run's mutex. -/
def leave (d : Disk β δ) (c : ℕ × ℕ) (save : Bool) : Disk β δ :=
  { d with
    phase := Function.update d.phase c .idle
    lock := if save then Function.update d.lock c.1 none else d.lock }

def remember (d : Disk β δ) (run : ℕ) (digest : δ) : Disk β δ :=
  { d with seen := Function.update d.seen run (some digest) }

/-- Link the next generation exclusively. -/
def link (d : Disk β δ) (c : ℕ × ℕ) (base : Option (ℕ × β)) (body : β) : Disk β δ :=
  let g := generationOf base+1
  if (d.files.read g).isSome then d.leave c true
  else
    let p : Publication β δ := ⟨d.links.length,base,d.seen c.1,d.files.newest,decide (g ∈ d.pruned)⟩
    { d with files := d.files ++ [(g,body)], links := d.links ++ [p] }.goto c (.syncing p body)

/-- One step of a call. A save that must wait for its run's mutex stays where it is. -/
def step (digest : β → δ) (d : Disk β δ) (c : ℕ × ℕ) (m : Move β) : Disk β δ :=
  match d.phase c,m with
  | .idle,.save =>
    if d.lock c.1 = none then
      { d with lock := Function.update d.lock c.1 (some c.2) }.goto c (.listing true 0)
    else d
  | .idle,.load => d.goto c (.listing false 0)
  | .listing save attempt,.next =>
    if d.files.current = 0 then if save then d.goto c (.comparing none) else d.leave c false
    else d.goto c (.reading save attempt d.files.current)
  | .listing save _,.fail => d.leave c save
  | .reading save attempt g,.next => match d.files.read g with
    | some body => d.goto c (if save then .comparing (some (g,body)) else .loaded body)
    | none => if attempt+1 ≥ readAttempts then d.leave c save
      else d.goto c (.listing save (attempt+1))
  | .reading save _ _,.fail => d.leave c save
  | .loaded body,.next => if d.lock c.1 = none then (d.remember c.1 (digest body)).goto c .idle
    else d
  | .loaded _,.fail => d.leave c false
  | .comparing base,.next =>
    if base.all (fun b => d.seen c.1 = some (digest b.2)) then d.goto c (.linking base)
    else d.leave c true
  | .linking base,.link body => d.link c base body
  | .linking _,.fail => d.leave c true
  | .syncing p body,.next => (d.remember c.1 (digest body)).goto c (.pruneListing p)
  | .syncing _ _,.fail => d.leave c true
  | .pruneListing p,.next => d.goto c (.pruning p (d.files.superseded (generationOf p.base+1)))
  | .pruneListing p,.fail => d.goto c (.pruning p [])
  | .pruning p (g :: rest),.next =>
    { d with files := d.files.remove g, pruned := g :: d.pruned }.goto c (.pruning p rest)
  | .pruning p (_ :: rest),.fail => d.goto c (.pruning p rest)
  | .pruning p [],.next => { d with reported := p :: d.reported }.leave c true
  | _,_ => d

/-- The directory after the moves of any runs' calls, in the order they were made. -/
def run (digest : β → δ) (moves : List ((ℕ × ℕ) × Move β)) : Disk β δ :=
  moves.foldl (fun d m => d.step digest m.1 m.2) empty

/-- Every save reported successful linked onto the newest generation of that moment, whose contents
its run had seen, and no other did so onto the same generation. -/
def Serial (digest : β → δ) (d : Disk β δ) : Prop :=
  ∀ p ∈ d.reported, p.newest = p.base ∧ (∀ g b, p.base = some (g,b) → p.seen = some (digest b)) ∧
    ∀ q ∈ d.reported, generationOf q.base = generationOf p.base → q.serial = p.serial

end Disk

/-! The directory as saves change it. -/

namespace Files
variable {β : Type} {files : Files β} {g : ℕ} {body : β}

@[simp] lemma current_append (files : Files β) (g : ℕ) (body : β) :
    (files ++ [(g,body)]).current = max files.current g := by
  unfold current
  rw [List.foldl_append]
  simp only [List.foldl_cons,List.foldl_nil]
  split_ifs with h <;> omega

lemma le_current {f : ℕ × β} (h : f ∈ files) : f.1 ≤ files.current := by
  induction files using List.reverseRecOn with
  | nil => cases h
  | append_singleton files f' ih =>
    rw [current_append files f'.1 f'.2]
    rcases List.mem_append.mp h with h | h
    · exact (ih h).trans (le_max_left _ _)
    · rw [List.mem_singleton.mp h]
      exact le_max_right _ _

lemma current_mem (h : files.current ≠ 0) : ∃ body, (files.current,body) ∈ files := by
  induction files using List.reverseRecOn with
  | nil => exact absurd rfl h
  | append_singleton files f ih =>
    rw [current_append files f.1 f.2] at h ⊢
    by_cases hle : f.1 ≤ current files
    · rw [max_eq_left hle] at h ⊢
      obtain ⟨body,hb⟩ := ih h
      exact ⟨body,List.mem_append_left _ hb⟩
    · rw [max_eq_right (by omega)]
      exact ⟨f.2,List.mem_append_right _ (List.mem_singleton_self _)⟩

lemma read_isSome_iff : (files.read g).isSome = true ↔ g ∈ files.map Prod.fst := by
  unfold read
  rw [Option.isSome_map,List.find?_isSome,List.mem_map]
  simp

lemma mem_generations : g ∈ files.map Prod.fst ↔ ∃ body, (g,body) ∈ files := by
  simp

/-- A removal below the newest generation leaves the newest as it was. -/
lemma current_remove (h : g < files.current) : (files.remove g).current = files.current := by
  apply le_antisymm
  · by_cases hz : (files.remove g).current = 0
    · omega
    · obtain ⟨body,hb⟩ := current_mem hz
      exact le_current (List.mem_of_mem_filter hb)
  · obtain ⟨body,hb⟩ := current_mem (by omega : files.current ≠ 0)
    apply @le_current _ _ (files.current,body)
    apply List.mem_filter.mpr
    exact ⟨hb,by simp; omega⟩

lemma read_append_of_some (h : files.read g = some body) (f : ℕ × β) :
    Files.read (files ++ [f]) g = some body := by
  unfold read at h ⊢
  cases hf : files.find? (fun f => f.1 = g) with
  | none =>
    rw [hf] at h
    cases h
  | some x =>
    rw [hf] at h
    rw [List.find?_append,hf]
    exact h

lemma read_remove_of_ne {g' : ℕ} (h : g' ≠ g) : (files.remove g).read g' = files.read g' := by
  unfold read remove
  rw [List.find?_filter]
  congr 2
  funext f
  by_cases hf : f.1 = g' <;> simp [hf,h]

lemma lt_of_mem_superseded {keep : ℕ} (h : g ∈ files.superseded keep) : g < keep := by
  have hmem := (List.mem_insertionSort _).mp h
  simpa using (List.mem_filter.mp hmem).2

/-- What a directory that saves have moved on keeps: its newest generation is no older, and where
it is the same the contents are. -/
structure Onward (files files' : Files β) : Prop where
  le : files.current ≤ files'.current
  kept : ∀ body, files.read files'.current = some body → files'.read files'.current = some body

lemma Onward.refl (files : Files β) : Onward files files := ⟨le_refl _,fun _ h => h⟩

lemma onward_append (f : ℕ × β) : Onward files (files ++ [f]) := by
  refine ⟨?_,fun _ h => read_append_of_some h f⟩
  rw [current_append files f.1 f.2]
  exact le_max_left _ _

lemma onward_remove (h : g < files.current) : Onward files (files.remove g) := by
  refine ⟨(current_remove h).ge,?_⟩
  intro body hb
  rw [current_remove h] at hb ⊢
  rw [read_remove_of_ne (by omega)]
  exact hb

lemma newest_of_read (hg : files.current ≠ 0) (h : files.read files.current = some body) :
    files.newest = some (files.current,body) := by
  rw [newest,if_neg hg,h,Option.map_some]

lemma generationOf_newest (files : Files β) : generationOf files.newest = files.current := by
  by_cases hz : files.current = 0
  · rw [newest,if_pos hz,hz]
    rfl
  · have hsome := read_isSome_iff.mpr (mem_generations.mpr (current_mem hz))
    obtain ⟨body,hb⟩ := Option.isSome_iff_exists.mp hsome
    rw [newest_of_read hz hb]
    rfl

lemma Onward.newest_eq {files' : Files β} (h : Onward files files')
    (he : files.current = files'.current) : files'.newest = files.newest := by
  by_cases hz : files.current = 0
  · rw [newest,newest,if_pos hz,if_pos (by omega)]
  · have hsome := read_isSome_iff.mpr (mem_generations.mpr (current_mem hz))
    obtain ⟨body,hb⟩ := Option.isSome_iff_exists.mp hsome
    have hb' := h.kept body (by rw [← he]; exact hb)
    rw [newest_of_read hz hb,newest_of_read (by omega) hb',he]

/-- What a save read is the newest generation, unless a newer one has been linked since. -/
def Recent (files : Files β) (base : Option (ℕ × β)) : Prop :=
  generationOf base ≤ files.current ∧ (generationOf base = files.current → base = files.newest)

lemma Recent.onward {files' : Files β} {base : Option (ℕ × β)} (hr : files.Recent base)
    (h : Onward files files') : files'.Recent base := by
  have hle := h.le
  have hbase := hr.1
  refine ⟨by omega,?_⟩
  intro he
  rw [h.newest_eq (by omega)]
  exact hr.2 (by omega)

end Files

/-! The invariant of the shared directory. -/

section invariant
variable {β δ : Type} {digest : β → δ}

/-- A link took a number no prune had removed exactly when it was made onto the newest
generation. -/
def Publication.Genuine (digest : β → δ) (p : Publication β δ) : Prop :=
  (p.newest = p.base ↔ p.reused = false) ∧ ∀ g b, p.base = some (g,b) → p.seen = some (digest b)

/-- What holds of a call where it stands; a save holds its run's mutex. -/
def Phase.Holds (digest : β → δ) (files : Files β) (links : List (Publication β δ))
    (seen : Option δ) (held : Prop) : Phase β δ → Prop
  | .idle | .loaded _ => True
  | .listing save _ => save = true → held
  | .reading save _ g => (save = true → held) ∧ g ≠ 0 ∧ g ≤ files.current
  | .comparing base => held ∧ files.Recent base
  | .linking base => held ∧ files.Recent base ∧ ∀ g b, base = some (g,b) → seen = some (digest b)
  | .syncing p _ | .pruneListing p => held ∧ p ∈ links
  | .pruning p rest => held ∧ p ∈ links ∧ ∀ g ∈ rest, g < files.current

lemma Phase.Holds.mono {files files' : Files β} {links links' : List (Publication β δ)}
    {seen seen' : Option δ} {held held' : Prop} {ph : Phase β δ}
    (h : ph.Holds digest files links seen held) (hf : files.Onward files')
    (hl : ∀ p ∈ links, p ∈ links') (hs : held → held' ∧ seen' = seen) :
    ph.Holds digest files' links' seen' held' := by
  have hle := hf.le
  cases ph with
  | idle | loaded => trivial
  | listing save attempt => exact fun hsave => (hs (h hsave)).1
  | reading save attempt g => exact ⟨fun hsave => (hs (h.1 hsave)).1,h.2.1,h.2.2.trans hle⟩
  | comparing base => exact ⟨(hs h.1).1,h.2.onward hf⟩
  | linking base =>
    obtain ⟨hheld,hrecent,hseen⟩ := h
    rw [← (hs hheld).2] at hseen
    exact ⟨(hs hheld).1,hrecent.onward hf,hseen⟩
  | syncing p body => exact ⟨(hs h.1).1,hl p h.2⟩
  | pruneListing p => exact ⟨(hs h.1).1,hl p h.2⟩
  | pruning p rest =>
    exact ⟨(hs h.1).1,hl p h.2.1,fun g hg => (h.2.2 g hg).trans_le hle⟩

namespace Disk

/-- Every number up to the newest generation was linked and is there or was pruned, and only
numbers below it were pruned; each link's number is at most the newest generation, and links made
onto the newest generation are onto different ones. -/
structure Sound (digest : β → δ) (d : Disk β δ) : Prop where
  numbered : ∀ g, 0 < g → g ≤ d.files.current → g ∈ d.files.map Prod.fst ∨ g ∈ d.pruned
  below : ∀ g ∈ d.pruned, g < d.files.current
  genuine : ∀ p ∈ d.links, p.Genuine digest ∧ generationOf p.base < d.files.current
  ordered : d.links.Pairwise (fun p q => generationOf p.base < generationOf q.newest)
  reports : ∀ p ∈ d.reported, p ∈ d.links
  phases : ∀ c, (d.phase c).Holds digest d.files d.links (d.seen c.1) (d.lock c.1 = some c.2)

namespace Sound
variable {d : Disk β δ} {c : ℕ × ℕ}

lemma empty : (Disk.empty : Disk β δ).Sound digest where
  numbered := by
    intro g hg hle
    have hz : (Disk.empty : Disk β δ).files.current = 0 := rfl
    omega
  below := by simp [Disk.empty]
  genuine := by simp [Disk.empty]
  ordered := .nil
  reports := by simp [Disk.empty]
  phases := fun _ => trivial

/-- One call moves on: every other save keeps its mutex and what its run has seen. -/
lemma phases_move (h : d.Sound digest) {d' : Disk β δ} (hf : d.files.Onward d'.files)
    (hl : ∀ p ∈ d.links, p ∈ d'.links) (hp : ∀ c', c' ≠ c → d'.phase c' = d.phase c')
    (hs : ∀ c', c' ≠ c → d.lock c'.1 = some c'.2 →
      d'.lock c'.1 = some c'.2 ∧ d'.seen c'.1 = d.seen c'.1)
    (ho : (d'.phase c).Holds digest d'.files d'.links (d'.seen c.1) (d'.lock c.1 = some c.2)) (c') :
    (d'.phase c').Holds digest d'.files d'.links (d'.seen c'.1) (d'.lock c'.1 = some c'.2) := by
  by_cases hc : c' = c
  · rw [hc]
    exact ho
  · rw [hp c' hc]
    exact (h.phases c').mono hf hl (hs c' hc)

/-- A step that leaves the directory and the records alone. -/
lemma quiet (h : d.Sound digest) {d' : Disk β δ} (hf : d'.files = d.files)
    (hpruned : d'.pruned = d.pruned) (hl : d'.links = d.links) (hr : ∀ p ∈ d'.reported, p ∈ d.links)
    (hp : ∀ c', c' ≠ c → d'.phase c' = d.phase c')
    (hs : ∀ c', c' ≠ c → d.lock c'.1 = some c'.2 →
      d'.lock c'.1 = some c'.2 ∧ d'.seen c'.1 = d.seen c'.1)
    (ho : (d'.phase c).Holds digest d.files d.links (d'.seen c.1) (d'.lock c.1 = some c.2)) :
    d'.Sound digest where
  numbered := by
    rw [hf,hpruned]
    exact h.numbered
  below := by
    rw [hf,hpruned]
    exact h.below
  genuine := by
    rw [hf,hl]
    exact h.genuine
  ordered := by
    rw [hl]
    exact h.ordered
  reports := by
    rw [hl]
    exact hr
  phases := by
    apply h.phases_move (by rw [hf]; exact .refl _) (by rw [hl]; exact fun _ hp => hp) hp hs
    rw [hf,hl]
    exact ho

lemma goto (h : d.Sound digest) {ph : Phase β δ}
    (ho : ph.Holds digest d.files d.links (d.seen c.1) (d.lock c.1 = some c.2)) :
    (d.goto c ph).Sound digest := by
  refine quiet h (c := c) rfl rfl rfl h.reports ?_ ?_ ?_
  · exact fun c' hc => Function.update_of_ne hc _ _
  · exact fun c' _ hlock => ⟨hlock,rfl⟩
  · simp only [Disk.goto,Function.update_self]
    exact ho

/-- Another save does not hold the mutex that this call holds or finds free. -/
lemma run_ne {c' : ℕ × ℕ} (hc : c' ≠ c) (hlock : d.lock c'.1 = some c'.2)
    (hown : d.lock c.1 = none ∨ d.lock c.1 = some c.2) : c'.1 ≠ c.1 := by
  intro he
  rw [he] at hlock
  rcases hown with hown | hown
  · rw [hown] at hlock
    cases hlock
  · rw [hown] at hlock
    exact hc (Prod.ext he (Option.some.inj hlock).symm)

lemma leave (h : d.Sound digest) {save : Bool} (hheld : save = true → d.lock c.1 = some c.2) :
    (d.leave c save).Sound digest := by
  refine quiet h (c := c) rfl rfl rfl h.reports ?_ ?_ ?_
  · exact fun c' hc => Function.update_of_ne hc _ _
  · intro c' hc hlock
    refine ⟨?_,rfl⟩
    cases save with
    | false => exact hlock
    | true =>
      have hne := run_ne hc hlock (.inr (hheld rfl))
      simp only [Disk.leave,if_true]
      rw [Function.update_of_ne hne]
      exact hlock
  · simp only [Disk.leave,Function.update_self]
    trivial

lemma remember (h : d.Sound digest) (hown : d.lock c.1 = none ∨ d.lock c.1 = some c.2)
    {ph : Phase β δ} (x : δ)
    (hph : ph.Holds digest d.files d.links (some x) (d.lock c.1 = some c.2)) :
    ((d.remember c.1 x).goto c ph).Sound digest := by
  refine quiet h (c := c) rfl rfl rfl h.reports ?_ ?_ ?_
  · exact fun c' hc => Function.update_of_ne hc _ _
  · intro c' hc hlock
    exact ⟨hlock,Function.update_of_ne (run_ne hc hlock hown) _ _⟩
  · simp only [Disk.goto,Disk.remember,Function.update_self]
    exact hph

lemma lock (h : d.Sound digest) (hfree : d.lock c.1 = none) {ph : Phase β δ}
    (hph : ph.Holds digest d.files d.links (d.seen c.1) True) :
    ({ d with lock := Function.update d.lock c.1 (some c.2) }.goto c ph).Sound digest := by
  refine quiet h (c := c) rfl rfl rfl h.reports ?_ ?_ ?_
  · exact fun c' hc => Function.update_of_ne hc _ _
  · intro c' hc hlock
    refine ⟨?_,rfl⟩
    have hne := run_ne hc hlock (.inl hfree)
    simp only [Disk.goto]
    rw [Function.update_of_ne hne]
    exact hlock
  · simp only [Disk.goto,Function.update_self]
    exact hph

lemma report (h : d.Sound digest) {p : Publication β δ} (hp : p ∈ d.links)
    (hheld : d.lock c.1 = some c.2) :
    ({ d with reported := p :: d.reported }.leave c true).Sound digest := by
  have hreported : Disk.Sound digest { d with reported := p :: d.reported } := by
    refine quiet h (c := c) rfl rfl rfl ?_ (fun _ _ => rfl) (fun _ _ hlock => ⟨hlock,rfl⟩)
      (h.phases c)
    intro q hq
    rcases List.mem_cons.mp hq with rfl | hq
    · exact hp
    · exact h.reports q hq
  exact hreported.leave (fun _ => hheld)

/-- Removing a superseded generation. -/
lemma remove (h : d.Sound digest) {p : Publication β δ} {g : ℕ} {rest : List ℕ}
    (hph : (Phase.pruning p (g :: rest)).Holds digest d.files d.links (d.seen c.1)
      (d.lock c.1 = some c.2)) :
    ({ d with files := d.files.remove g, pruned := g :: d.pruned }.goto c
      (.pruning p rest)).Sound digest := by
  obtain ⟨hheld,hp,hrest⟩ := hph
  have hlt : g < d.files.current := hrest g List.mem_cons_self
  have hcur := Files.current_remove hlt
  refine ⟨?_,?_,?_,h.ordered,h.reports,?_⟩
  · intro g' hpos hle
    change g' ≤ (d.files.remove g).current at hle
    rw [hcur] at hle
    by_cases hg : g' = g
    · exact .inr (List.mem_cons.mpr (.inl hg))
    · rcases h.numbered g' hpos hle with hin | hin
      · left
        obtain ⟨body,hb⟩ := Files.mem_generations.mp hin
        exact Files.mem_generations.mpr ⟨body,List.mem_filter.mpr ⟨hb,by simpa using hg⟩⟩
      · exact .inr (List.mem_cons_of_mem _ hin)
  · intro g' hg
    change g' < (d.files.remove g).current
    rw [hcur]
    rcases List.mem_cons.mp hg with rfl | hg
    · exact hlt
    · exact h.below g' hg
  · intro q hq
    change _ ∧ _ < (d.files.remove g).current
    rw [hcur]
    exact h.genuine q hq
  · refine h.phases_move (c := c) (Files.onward_remove hlt) (fun _ hq => hq)
      (fun c' hc => Function.update_of_ne hc _ _) (fun c' _ hlock => ⟨hlock,rfl⟩) ?_
    simp only [Disk.goto,Function.update_self]
    refine ⟨hheld,hp,?_⟩
    intro g' hg
    rw [hcur]
    exact hrest g' (List.mem_cons_of_mem _ hg)

/-- A link onto a number that is free. -/
lemma link (h : d.Sound digest) {base : Option (ℕ × β)} (body : β)
    (hph : (Phase.linking base).Holds digest d.files d.links (d.seen c.1) (d.lock c.1 = some c.2)) :
    (d.link c base body).Sound digest := by
  obtain ⟨hheld,hrecent,hseen⟩ := hph
  unfold Disk.link
  dsimp only
  by_cases hfree : (d.files.read (generationOf base+1)).isSome = true
  · rw [if_pos hfree]
    exact h.leave (fun _ => hheld)
  rw [if_neg hfree]
  have hcur := Files.current_append d.files (generationOf base+1) body
  have hfiles : generationOf base+1 ∉ d.files.map Prod.fst :=
    fun hin => hfree (Files.read_isSome_iff.mpr hin)
  have hgenuine : d.files.newest = base ↔ decide (generationOf base+1 ∈ d.pruned) = false := by
    rw [decide_eq_false_iff_not]
    constructor
    · intro hnew hin
      have hlt := h.below _ hin
      rw [← hnew,Files.generationOf_newest] at hlt
      omega
    · intro hout
      by_contra hne
      have hlt : generationOf base < d.files.current :=
        lt_of_le_of_ne hrecent.1 (fun he => hne (hrecent.2 he).symm)
      rcases h.numbered (generationOf base+1) (by omega) hlt with hin | hin
      · exact hfiles hin
      · exact hout hin
  refine ⟨?_,?_,?_,?_,?_,?_⟩
  · intro g hpos hle
    simp only [Disk.goto] at hle ⊢
    rw [hcur] at hle
    rw [List.map_append,List.mem_append]
    by_cases hg : g ≤ d.files.current
    · rcases h.numbered g hpos hg with hin | hin
      · exact .inl (.inl hin)
      · exact .inr hin
    · left
      right
      have hrec := hrecent.1
      rw [List.map_singleton,List.mem_singleton]
      omega
  · intro g hg
    simp only [Disk.goto]
    rw [hcur]
    exact (h.below g hg).trans_le (le_max_left _ _)
  · intro p hp
    simp only [Disk.goto] at hp ⊢
    rw [hcur]
    rcases List.mem_append.mp hp with hp | hp
    · exact ⟨(h.genuine p hp).1,(h.genuine p hp).2.trans_le (le_max_left _ _)⟩
    · rw [List.mem_singleton.mp hp]
      exact ⟨⟨hgenuine,hseen⟩,lt_max_of_lt_right (Nat.lt_succ_self _)⟩
  · simp only [Disk.goto]
    rw [List.pairwise_append]
    refine ⟨h.ordered,List.pairwise_singleton _ _,?_⟩
    intro p hp q hq
    rw [List.mem_singleton.mp hq]
    change generationOf p.base < generationOf d.files.newest
    rw [Files.generationOf_newest]
    exact (h.genuine p hp).2
  · exact fun p hp => List.mem_append_left _ (h.reports p hp)
  · refine h.phases_move (c := c) (Files.onward_append _) (fun _ hq => List.mem_append_left _ hq)
      (fun c' hc => Function.update_of_ne hc _ _) (fun c' _ hlock => ⟨hlock,rfl⟩) ?_
    simp only [Disk.goto,Function.update_self]
    exact ⟨hheld,List.mem_append_right _ (List.mem_singleton_self _)⟩

lemma read (h : d.Sound digest) {save : Bool} {attempt g : ℕ}
    (hph : (Phase.reading save attempt g).Holds digest d.files d.links (d.seen c.1)
      (d.lock c.1 = some c.2)) {body : β} (hread : d.files.read g = some body) :
    (d.goto c (if save then .comparing (some (g,body)) else .loaded body)).Sound digest := by
  apply h.goto
  cases save with
  | false => trivial
  | true =>
    refine ⟨hph.1 rfl,hph.2.2,?_⟩
    intro he
    change g = d.files.current at he
    rw [he] at hread ⊢
    rw [Files.newest_of_read (by rw [← he]; exact hph.2.1) hread]

/-- Links onto the newest generation of their moment are onto different generations. -/
lemma distinct (h : d.Sound digest) {p q : Publication β δ} (hp : p ∈ d.links) (hq : q ∈ d.links)
    (hne : p ≠ q) (hpn : p.newest = p.base) (hqn : q.newest = q.base) :
    generationOf p.base ≠ generationOf q.base := by
  let R : Publication β δ → Publication β δ → Prop := fun p q => p.newest = p.base →
    q.newest = q.base → generationOf p.base ≠ generationOf q.base
  have hsymm : Std.Symm R := ⟨fun _ _ h hp hq he => h hq hp he.symm⟩
  have hpair : d.links.Pairwise R := by
    apply h.ordered.imp
    intro p q hlt _ hqn
    rw [hqn] at hlt
    exact hlt.ne
  exact hpair.forall hp hq hne hpn hqn

variable [DecidableEq δ]

lemma step (h : d.Sound digest) (c : ℕ × ℕ) (m : Move β) : (d.step digest c m).Sound digest := by
  have hph := h.phases c
  cases hp : d.phase c with
  | idle => cases m with
    | save =>
      simp only [Disk.step,hp]
      by_cases hfree : d.lock c.1 = none
      · rw [if_pos hfree]
        exact h.lock hfree (fun _ => trivial)
      · rw [if_neg hfree]
        exact h
    | load =>
      simp only [Disk.step,hp]
      exact h.goto (fun hsave => by cases hsave)
    | next | fail | link => simpa only [Disk.step,hp] using h
  | listing save attempt =>
    rw [hp] at hph
    cases m with
    | next =>
      simp only [Disk.step,hp]
      split_ifs with hz hsave
      · refine h.goto ⟨hph hsave,Nat.zero_le _,?_⟩
        intro _
        rw [Files.newest,if_pos hz]
      · exact h.leave (fun hs => by cases hs)
      · exact h.goto ⟨hph,hz,le_refl _⟩
    | fail =>
      simp only [Disk.step,hp]
      exact h.leave hph
    | save | load | link => simpa only [Disk.step,hp] using h
  | reading save attempt g =>
    rw [hp] at hph
    cases m with
    | next =>
      simp only [Disk.step,hp]
      cases hread : d.files.read g with
      | some body => exact h.read hph hread
      | none =>
        dsimp only
        split_ifs
        · exact h.leave hph.1
        · exact h.goto hph.1
    | fail =>
      simp only [Disk.step,hp]
      exact h.leave hph.1
    | save | load | link => simpa only [Disk.step,hp] using h
  | loaded body => cases m with
    | next =>
      simp only [Disk.step,hp]
      by_cases hfree : d.lock c.1 = none
      · rw [if_pos hfree]
        exact h.remember (.inl hfree) (digest body) trivial
      · rw [if_neg hfree]
        exact h
    | fail =>
      simp only [Disk.step,hp]
      exact h.leave (fun hs => by cases hs)
    | save | load | link => simpa only [Disk.step,hp] using h
  | comparing base =>
    rw [hp] at hph
    cases m with
    | next =>
      simp only [Disk.step,hp]
      split_ifs with hseen
      · refine h.goto ⟨hph.1,hph.2,?_⟩
        rintro g b rfl
        simpa using hseen
      · exact h.leave (fun _ => hph.1)
    | save | load | fail | link => simpa only [Disk.step,hp] using h
  | linking base =>
    rw [hp] at hph
    cases m with
    | link body =>
      simp only [Disk.step,hp]
      exact h.link body hph
    | fail =>
      simp only [Disk.step,hp]
      exact h.leave (fun _ => hph.1)
    | save | load | next => simpa only [Disk.step,hp] using h
  | syncing p body =>
    rw [hp] at hph
    cases m with
    | next =>
      simp only [Disk.step,hp]
      exact h.remember (.inr hph.1) (digest body) hph
    | fail =>
      simp only [Disk.step,hp]
      exact h.leave (fun _ => hph.1)
    | save | load | link => simpa only [Disk.step,hp] using h
  | pruneListing p =>
    rw [hp] at hph
    cases m with
    | next =>
      simp only [Disk.step,hp]
      refine h.goto ⟨hph.1,hph.2,?_⟩
      intro g hg
      have hlt := (h.genuine p hph.2).2
      have hkeep := Files.lt_of_mem_superseded hg
      omega
    | fail =>
      simp only [Disk.step,hp]
      exact h.goto ⟨hph.1,hph.2,by simp⟩
    | save | load | link => simpa only [Disk.step,hp] using h
  | pruning p rest =>
    rw [hp] at hph
    cases rest with
    | nil => cases m with
      | next =>
        simp only [Disk.step,hp]
        exact h.report hph.2.1 hph.1
      | save | load | fail | link => simpa only [Disk.step,hp] using h
    | cons g rest => cases m with
      | next =>
        simp only [Disk.step,hp]
        exact h.remove hph
      | fail =>
        simp only [Disk.step,hp]
        exact h.goto ⟨hph.1,hph.2.1,fun g' hg => hph.2.2 g' (List.mem_cons_of_mem _ hg)⟩
      | save | load | link => simpa only [Disk.step,hp] using h

lemma run (digest : β → δ) (moves : List ((ℕ × ℕ) × Move β)) :
    (Disk.run digest moves).Sound digest := by
  induction moves using List.reverseRecOn with
  | nil => exact .empty
  | append_singleton moves m ih =>
    rw [Disk.run,List.foldl_append]
    exact ih.step m.1 m.2

end Sound

/-- Over any interleaving of any number of runs' saves and loads, the saves reported successful form
one line of generations exactly when none of them took a number that a prune had removed. -/
theorem run_serial_iff [DecidableEq δ] (digest : β → δ) (moves : List ((ℕ × ℕ) × Move β)) :
    (Disk.run digest moves).Serial digest ↔ ∀ p ∈ (Disk.run digest moves).reported,
    p.reused = false := by
  have hs := Sound.run digest moves
  constructor
  · intro h p hp
    exact (hs.genuine p (hs.reports p hp)).1.1.mp (h p hp).1
  · intro h p hp
    obtain ⟨hp1,hseen⟩ := (hs.genuine p (hs.reports p hp)).1
    refine ⟨hp1.mpr (h p hp),hseen,?_⟩
    intro q hq hgen
    have hq1 := (hs.genuine q (hs.reports q hq)).1.1.mpr (h q hq)
    by_contra hne
    exact hs.distinct (hs.reports q hq) (hs.reports p hp) (fun he => hne (by rw [he])) hq1
      (hp1.mpr (h p hp)) hgen

end Disk

/-- A save from its start to its report that prunes one generation. -/
def wholeSave (run : ℕ) (body : String) : List ((ℕ × ℕ) × Move String) :=
  [((run,0),.save),((run,0),.next),((run,0),.next),((run,0),.next),((run,0),.link body),
   ((run,0),.next),((run,0),.next),((run,0),.next),((run,0),.next)]

/-- Two runs observe generation 1; while the second waits to link, the first saves twice, and its
second save prunes generation 2. -/
def staleLink : List ((ℕ × ℕ) × Move String) :=
  let before : List ((ℕ × ℕ) × Move String) :=
    [((0,0),.save),((0,0),.next),((0,0),.next),((0,0),.link "one"),((0,0),.next),((0,0),.next),
     ((0,0),.next),((1,1),.load),((1,1),.next),((1,1),.next),((1,1),.next),
     ((1,0),.save),((1,0),.next),((1,0),.next),((1,0),.next)]
  before ++ wholeSave 0 "two" ++ wholeSave 0 "three" ++
    [((1,0),.link "other two"),((1,0),.next),((1,0),.next),((1,0),.next)]

/-- Both saves onto generation 1 are reported successful, and the second is hidden behind
generation 3. -/
theorem stale_link_succeeds : ¬ (Disk.run id staleLink).Serial id ∧
    (Disk.run id staleLink).files = [(3,"three"),(2,"other two")] ∧
    (Disk.run id staleLink).reported.map (fun p => (p.serial,p.base)) =
      [(3,some (1,"one")),(2,some (2,"two")),(1,some (1,"one")),(0,none)] := by
  have hreported : (Disk.run id staleLink).reported.map (fun p => (p.newest,p.base)) =
      [(some (3,"three"),some (1,"one")),(some (2,"two"),some (2,"two")),
       (some (1,"one"),some (1,"one")),(none,none)] := by decide
  refine ⟨?_,by decide,by decide⟩
  intro h
  have hmem : (some (3,"three"),some (1,"one")) ∈
      (Disk.run id staleLink).reported.map (fun p => (p.newest,p.base)) := by
    rw [hreported]
    exact List.mem_cons_self
  obtain ⟨p,hp,he⟩ := List.mem_map.mp hmem
  have hnewest := (h p hp).1
  have hbase := congrArg Prod.snd he
  have hnew := congrArg Prod.fst he
  rw [hnewest] at hnew
  exact absurd (hnew.symm.trans hbase) (by decide)

end invariant

end Manvi.Session
