import Manvi.Fetch.Client

/-! What a fetch reaches: vetted URLs and addresses only, and how far it follows redirects. -/
namespace Manvi.Fetch
open Manvi.Encoding

/-- A URL that may be requested: https, without credentials, on the default port, at a host that is
allowed or below one. -/
def Vetted (c : Client) (env : Env) (u : Url) : Prop :=
  u.scheme = ascii "https" ∧ u.user = none ∧ (u.port = [] ∨ u.port = ascii "443") ∧
    ∃ entry ∈ c.allowed, env.toLower u.hostname = entry ∨ (46 :: entry) <:+ env.toLower u.hostname

/-- An event that is allowed: a dial of an address from an answer of the resolver none of which is
blocked, or the request of a vetted URL. -/
def Event.safe (c : Client) (env : Env) : Event → Prop
  | .dialled addr answer => addr ∈ answer ∧ blockedAddr addr = none ∧
      (∀ a ∈ answer, blockedAddr a = none) ∧ ∃ lookup host, env.resolve lookup host = some answer
  | .requested u => Vetted c env u

/-- The URLs that were requested. -/
def requests (events : List Event) : List Url := events.filterMap (fun e => match e with
  | .requested u => some u
  | .dialled _ _ => none)

lemma firstBlocked_none {addrs : List Addr} (h : firstBlocked addrs = none) :
    ∀ a ∈ addrs, blockedAddr a = none := by
  intro a ha
  have := List.findSome?_eq_none_iff.mp h a ha
  exact Option.map_eq_none_iff.mp this

lemma attempts_subset (up : Addr → Bool) (addrs : List Addr) :
    ∀ a ∈ attempts up addrs, a ∈ addrs := by
  induction addrs with
  | nil => simp [attempts]
  | cons b addrs ih =>
    intro a ha
    unfold attempts at ha
    split_ifs at ha
    · rw [List.mem_singleton.mp ha]
      exact List.mem_cons_self
    · cases List.mem_cons.mp ha with
      | inl h =>
        rw [h]
        exact List.mem_cons_self
      | inr h => exact List.mem_cons_of_mem b (ih a h)

/-- A scheme that folds to https is https. -/
lemma scheme_of_equalFold (u : Url) (h : equalFold u.scheme (ascii "https") = true) :
    u.scheme = ascii "https" := by
  have hlow : ∀ b : UInt8, schemeByte b = true → lowerByte b = b := by
    intro b hb
    unfold lowerByte
    rw [if_neg]
    intro hup
    revert b
    set_option maxRecDepth 40000 in decide
  have hself : u.scheme.map lowerByte = u.scheme := by
    conv_rhs => rw [← List.map_id u.scheme]
    apply List.map_congr_left
    intro b hb
    exact hlow b (u.lowered b hb)
  unfold equalFold at h
  rw [decide_eq_true_eq,hself] at h
  rw [h]
  decide

section events
variable {c : Client} {env : Env}

lemma allows_entry {host : Bytes} (h : c.allows host = true) :
    ∃ entry ∈ c.allowed, host = entry ∨ (46 :: entry) <:+ host := by
  obtain ⟨entry,hmem,hentry⟩ := List.any_eq_true.mp h
  rw [decide_eq_true_eq,List.isSuffixOf_iff_suffix] at hentry
  exact ⟨entry,hmem,hentry⟩

/-- A URL that passes the check may be requested. -/
lemma vetted_of_vetURL {k : ℕ} {u : Url} (h : c.vetURL env k u = none) : Vetted c env u := by
  unfold Client.vetURL at h
  dsimp only at h
  split_ifs at h with hscheme huser hhost hport hnumeric hallow
  refine ⟨scheme_of_equalFold u hscheme,?_,?_,allows_entry hallow⟩
  · rw [Bool.not_eq_true,Option.isSome_eq_false_iff,Option.isNone_iff_eq_none] at huser
    exact huser
  · by_cases he : u.port = []
    · exact .inl he
    · right
      by_contra hne
      exact hport ⟨by simpa using he,hne⟩

/-- A dial makes attempts on addresses of one answer, none of which is blocked. -/
lemma mem_dial {k j : ℕ} {d : Dial} {e : Event} (he : e ∈ dial env k j d) : ∃ a addrs host,
    e = .dialled a addrs ∧ a ∈ addrs ∧ (∀ b ∈ addrs, blockedAddr b = none) ∧
      env.resolve (.dial k j) host = some addrs := by
  unfold dial at he
  cases hsplit : env.splitAddress d.address with
  | none =>
    rw [hsplit] at he
    cases he
  | some hp =>
    rw [hsplit] at he
    dsimp only at he
    cases hres : env.resolve (.dial k j) hp.1 with
    | none =>
      rw [hres] at he
      cases he
    | some addrs =>
      rw [hres] at he
      dsimp only at he
      split_ifs at he with hblocked
      · cases he
      · rw [Bool.not_eq_true,Option.isSome_eq_false_iff,Option.isNone_iff_eq_none] at hblocked
        obtain ⟨a,ha,rfl⟩ := List.mem_map.mp he
        exact ⟨a,addrs,hp.1,rfl,attempts_subset d.up addrs a ha,firstBlocked_none hblocked,hres⟩

lemma dial_safe (k j : ℕ) (d : Dial) : ∀ e ∈ dial env k j d, e.safe c env := by
  intro e he
  obtain ⟨a,addrs,host,rfl,hmem,hall,hres⟩ := mem_dial he
  exact ⟨hmem,hall a hmem,hall,_,host,hres⟩

lemma request_safe {u : Url} (hu : Vetted c env u) (k : ℕ) :
    ∀ e ∈ request env k u, e.safe c env := by
  intro e he
  cases List.mem_cons.mp he with
  | inl h =>
    rw [h]
    exact hu
  | inr h =>
    obtain ⟨d,_,hd⟩ := List.mem_flatMap.mp h
    exact dial_safe k d.2 d.1 e hd

/-- Every step along the redirects is allowed. -/
lemma follow_safe {k : ℕ} {u : Url} {hops : List Url} (hu : Vetted c env u) :
    ∀ e ∈ (c.follow env k u hops).1, e.safe c env := by
  induction hops generalizing k u with
  | nil => exact request_safe hu k
  | cons next hops ih =>
    unfold Client.follow
    cases hcheck : c.checkRedirect env (k+1) next with
    | some err => exact request_safe hu k
    | none =>
      unfold Client.checkRedirect at hcheck
      split_ifs at hcheck with hmost
      intro e he
      cases List.mem_append.mp he with
      | inl h => exact request_safe hu k e h
      | inr h => exact ih (vetted_of_vetURL hcheck) e h

lemma fetch_safe (raw : Bytes) (hops : List Url) :
    ∀ e ∈ (c.fetch env raw hops).1, e.safe c env := by
  unfold Client.fetch
  by_cases hoff : ¬ c.enabled = true
  · rw [if_pos hoff]
    intro e he
    cases he
  · rw [if_neg hoff]
    cases hparse : env.parse (trimSpace raw) with
    | none =>
      intro e he
      cases he
    | some u =>
      dsimp only
      cases hvet : c.vetURL env 0 u with
      | some err =>
        intro e he
        cases he
      | none => exact follow_safe (vetted_of_vetURL hvet)

@[simp] lemma requests_append (a b : List Event) : requests (a ++ b) = requests a ++ requests b :=
  List.filterMap_append

lemma requests_dial (k j : ℕ) (d : Dial) : requests (dial env k j d) = [] := by
  apply List.filterMap_eq_nil_iff.mpr
  intro e he
  obtain ⟨a,addrs,host,rfl,_⟩ := mem_dial he
  rfl

lemma requests_request (k : ℕ) (u : Url) : requests (request env k u) = [u] := by
  have hdials : requests ((env.dials k).zipIdx.flatMap (fun d => dial env k d.2 d.1)) = [] := by
    apply List.filterMap_eq_nil_iff.mpr
    intro e he
    obtain ⟨d,_,hd⟩ := List.mem_flatMap.mp he
    exact List.filterMap_eq_nil_iff.mp (requests_dial k d.2 d.1) e hd
  have hcons : requests (request env k u) =
      u :: requests ((env.dials k).zipIdx.flatMap (fun d => dial env k d.2 d.1)) := rfl
  rw [hcons,hdials]

/-- Redirects that pass the check are all followed exactly when the requests made before the last of
them stay below the bound. -/
lemma follow_all_iff {k : ℕ} {u : Url} {hops : List Url}
    (hpass : ∀ i v, hops[i]? = some v → c.vetURL env (k+1+i) v = none) :
    requests (c.follow env k u hops).1 = u :: hops ↔ hops = [] ∨
    ((k+hops.length : ℕ) : ℤ) < c.maxRedirects := by
  induction hops generalizing k u with
  | nil =>
    unfold Client.follow
    rw [requests_request]
    simp
  | cons next hops ih =>
    have hnext : c.vetURL env (k+1) next = none := hpass 0 next rfl
    unfold Client.follow
    by_cases hmost : c.maxRedirects ≤ ((k+1 : ℕ) : ℤ)
    · have hcheck : c.checkRedirect env (k+1) next = some (.redirects c.maxRedirects) := by
        rw [Client.checkRedirect,if_pos hmost]
      rw [hcheck]
      dsimp only
      rw [requests_request,List.length_cons]
      constructor
      · intro h
        cases h
      · intro h
        cases h with
        | inl h => cases h
        | inr h => omega
    · have hcheck : c.checkRedirect env (k+1) next = none := by
        rw [Client.checkRedirect,if_neg hmost]
        exact hnext
      have hrest : ∀ i v, hops[i]? = some v → c.vetURL env (k+1+1+i) v = none := by
        intro i v hv
        have := hpass (i+1) v hv
        rw [show k+1+1+i = k+1+(i+1) by omega]
        exact this
      rw [hcheck]
      dsimp only
      rw [requests_append,requests_request,List.singleton_append,List.cons.injEq,ih hrest,
        List.length_cons]
      constructor
      · rintro ⟨_,h⟩
        cases h with
        | inl h =>
          right
          rw [h,List.length_nil]
          omega
        | inr h => exact .inr (by omega)
      · intro h
        cases h with
        | inl h => cases h
        | inr h => exact ⟨rfl,.inr (by omega)⟩

end events

namespace Client

/-- The URL and every redirect pass the check, at the time each is made. -/
def Passes (c : Client) (env : Env) (raw : Bytes) (hops : List Url) : Prop :=
  c.enabled = true ∧ ∃ u, env.parse (trimSpace raw) = some u ∧ c.vetURL env 0 u = none ∧
    ∀ i v, hops[i]? = some v → c.vetURL env (1+i) v = none

/-- Every redirect of the chain is requested. -/
def Followed (c : Client) (env : Env) (raw : Bytes) (hops : List Url) : Prop :=
  ∃ u, env.parse (trimSpace raw) = some u ∧ requests (c.fetch env raw hops).1 = u :: hops

end Client

/-- A chain that passes is followed exactly when it is shorter than the bound. -/
lemma followed_iff {c : Client} {env : Env} {raw : Bytes} {hops : List Url}
    (h : c.Passes env raw hops) : c.Followed env raw hops ↔ (hops.length : ℤ) < c.maxRedirects := by
  obtain ⟨hon,u,hparse,hvet,hhops⟩ := h
  have hfetch : c.fetch env raw hops = c.follow env 0 u hops := by
    unfold Client.fetch
    rw [if_neg (by rw [hon]; simp),hparse]
    dsimp only
    rw [hvet]
  have hall : requests (c.follow env 0 u hops).1 = u :: hops ↔
      hops = [] ∨ ((0+hops.length : ℕ) : ℤ) < c.maxRedirects := by
    apply follow_all_iff
    intro i v hv
    exact hhops i v hv
  have hpos := c.bounded
  unfold Client.Followed
  rw [hfetch]
  constructor
  · rintro ⟨v,hv,hreq⟩
    rw [hparse] at hv
    cases hv
    cases hall.mp hreq with
    | inl hnil =>
      rw [hnil]
      exact hpos
    | inr hlt =>
      rw [Nat.zero_add] at hlt
      exact hlt
  · intro hlt
    exact ⟨u,hparse,hall.mpr (.inr (by rw [Nat.zero_add]; exact hlt))⟩

/-- For every client, resolver, transport, URL and redirects: what is dialled and requested is
vetted, and a chain that passes is followed exactly when it has at most the given number of hops;
except that a chain of exactly that number of hops is not followed. -/
theorem fetch_vetted_iff (c : Client) (env : Env) (raw : Bytes) (hops : List Url) :
    ((∀ e ∈ (c.fetch env raw hops).1, e.safe c env) ∧
      (c.Passes env raw hops → (c.Followed env raw hops ↔ (hops.length : ℤ) ≤ c.maxRedirects))) ↔
    ¬ (c.Passes env raw hops ∧ (hops.length : ℤ) = c.maxRedirects) := by
  constructor
  · rintro ⟨_,hchain⟩ ⟨hpass,hlen⟩
    have := (followed_iff hpass).mp ((hchain hpass).mpr (by omega))
    omega
  · intro hnot
    refine ⟨fetch_safe raw hops,?_⟩
    intro hpass
    have hne : (hops.length : ℤ) ≠ c.maxRedirects := fun heq => hnot ⟨hpass,heq⟩
    rw [followed_iff hpass]
    omega

/-- A page of an allowed host. -/
def samplePage : Url := ⟨ascii "https",none,ascii "docs.example",ascii "/",by decide +kernel⟩

/-- A site whose one name has one public address. -/
def sampleEnv : Env where
  toLower := id
  parse := fun text => if text = ascii "https://docs.example/" then some samplePage else none
  parseAddr := fun _ => none
  splitAddress := fun address => if address = ascii "docs.example:443" then
    some (ascii "docs.example",ascii "443") else none
  resolve := fun _ host => if host = ascii "docs.example" then some [.v4 (ipv4 93 184 216 34)]
    else none
  dials := fun k => if k = 0 then [⟨ascii "docs.example:443",fun _ => true⟩] else []

/-- A client for that site with the default bound. -/
def sampleClient : Client := .new sampleEnv [ascii "docs.example"] 0

lemma sampleClient_passes (n : ℕ) :
    sampleClient.Passes sampleEnv (ascii "https://docs.example/")
    (List.replicate n samplePage) := by
  have hvet : ∀ k, sampleClient.vetURL sampleEnv k samplePage = none := by
    intro k
    have hsame : sampleClient.vetURL sampleEnv k samplePage =
      sampleClient.vetURL sampleEnv 0 samplePage := rfl
    rw [hsame]
    decide
  refine ⟨by decide,samplePage,by decide,hvet 0,?_⟩
  intro i v hv
  have hmem := List.mem_of_getElem? hv
  rw [List.eq_of_mem_replicate hmem]
  exact hvet (1+i)

/-- Five redirects that all pass, with a bound of five, are not all followed. -/
theorem five_redirects_not_followed :
    ¬ ((∀ e ∈ (sampleClient.fetch sampleEnv (ascii "https://docs.example/")
      (List.replicate 5 samplePage)).1,
        e.safe sampleClient sampleEnv) ∧
      (sampleClient.Passes sampleEnv (ascii "https://docs.example/") (List.replicate 5 samplePage) →
        (sampleClient.Followed sampleEnv (ascii "https://docs.example/")
          (List.replicate 5 samplePage) ↔
          ((List.replicate 5 samplePage).length : ℤ) ≤ sampleClient.maxRedirects))) := by
  rintro ⟨_,hchain⟩
  have hpass := sampleClient_passes 5
  have hmost : sampleClient.maxRedirects = 5 := by decide
  have := (followed_iff hpass).mp ((hchain hpass).mpr (by rw [hmost]; simp))
  rw [hmost,List.length_replicate] at this
  omega

end Manvi.Fetch
