import Manvi.Encoding.Space
import Manvi.Encoding.Spans
import Manvi.Fetch.Address

/-! Fetching a document from the hosts an operator allowed: what is checked before a request, before
each redirect and before each connection. -/
namespace Manvi.Fetch
open Manvi.Encoding

/-- The bytes of a scheme as parsing leaves it. -/
def schemeByte (b : UInt8) : Bool := (97 ≤ b ∧ b ≤ 122) ∨ isDigit b ∨ b = 43 ∨ b = 45 ∨ b = 46

/-- A parsed URL. Its scheme is in lower case. -/
structure Url where
  scheme : Bytes
  user : Option Bytes
  host : Bytes
  rest : Bytes
  lowered : ∀ b ∈ scheme, schemeByte b = true
  deriving DecidableEq

def lowerByte (b : UInt8) : UInt8 := if 65 ≤ b ∧ b ≤ 90 then b+32 else b

/-- Equality up to case, of texts that are ASCII. -/
def equalFold (a b : Bytes) : Bool := a.map lowerByte = b.map lowerByte

def lastIndexByte (s : Bytes) (c : UInt8) : Option ℕ :=
  (s.reverse.idxOf? c).map (fun i => s.length-1-i)

/-- Whether a text is empty, or a colon and digits. -/
def validOptionalPort : Bytes → Bool
  | [] => true
  | b :: rest => b = 58 ∧ rest.all isDigit

def splitHostPort (hostPort : Bytes) : Bytes × Bytes :=
  let split := match lastIndexByte hostPort 58 with
    | some colon => if validOptionalPort (hostPort.drop colon) then
      (hostPort.take colon,hostPort.drop (colon+1))
      else (hostPort,[])
    | none => (hostPort,[])
  if split.1.head? = some 91 ∧ split.1.getLast? = some 93 then (split.1.tail.dropLast,split.2)
    else split

namespace Url

def hostname (u : Url) : Bytes := (splitHostPort u.host).1

def port (u : Url) : Bytes := (splitHostPort u.host).2

end Url

def defaultMaxRedirects : ℤ := 5

/-- A client for the hosts that are allowed, with a bound on the redirects of a fetch. -/
structure Client where
  allowed : List Bytes
  maxRedirects : ℤ
  named : ∀ entry ∈ allowed, entry ≠ []
  bounded : 0 < maxRedirects

/-- A lookup of a name: for the check of the k-th URL, or for a connection of the k-th request. -/
inductive Lookup
  | vet (k : ℕ)
  | dial (k j : ℕ)

/-- A connection that the transport asks for: the address, and which of the dials succeed. -/
structure Dial where
  address : Bytes
  up : Addr → Bool

/-- What a fetch depends on beside its arguments: the texts of the standard library, a resolver that
may answer every lookup differently, and the connections the transport asks for with each
request. -/
structure Env where
  toLower : Bytes → Bytes
  parse : Bytes → Option Url
  parseAddr : Bytes → Option Addr
  splitAddress : Bytes → Option (Bytes × Bytes)
  resolve : Lookup → Bytes → Option (List Addr)
  dials : ℕ → List Dial

inductive FetchErr
  | disabled
  | notURL
  | scheme (scheme : Bytes)
  | credentials (host : Bytes)
  | noHost
  | port (host port : Bytes)
  | numericHost (host : Bytes)
  | notAllowed (host : Bytes)
  | unresolved (host : Bytes)
  | noAddresses (host : Bytes)
  | blockedAddress (host : Bytes) (addr : Addr) (reason : String)
  | redirects (most : ℤ)
  deriving DecidableEq

/-- The first blocked address of an answer. -/
def firstBlocked (addrs : List Addr) : Option (Addr × String) :=
  addrs.findSome? (fun a => (blockedAddr a).map (fun reason => (a,reason)))

/-- Whether the last label of a host is a number. -/
def numericHost (host : Bytes) : Bool :=
  let host := if host.getLast? = some 46 then host.dropLast else host
  if host.contains 58 then false
  else
    let last := match lastIndexByte host 46 with
      | some i => host.drop (i+1)
      | none => host
    if last.isEmpty then false
    else if (ascii "0x").isPrefixOf last then true
    else last.all isDigit

namespace Client

/-- A client for exactly these hosts. -/
def new (env : Env) (allowed : List Bytes) (maxRedirects : ℤ) : Client where
  allowed := (allowed.map (fun host => env.toLower (trimSpace host))).filter (fun host =>
    !host.isEmpty)
  maxRedirects := if maxRedirects ≤ 0 then defaultMaxRedirects else maxRedirects
  named := by
    intro entry h
    have := (List.mem_filter.mp h).2
    simpa using this
  bounded := by
    split_ifs with h
    · decide
    · omega

def enabled (c : Client) : Bool := !c.allowed.isEmpty

def allows (c : Client) (host : Bytes) : Bool :=
  c.allowed.any (fun entry => host = entry ∨ (46 :: entry).isSuffixOf host)

/-- The check of a URL; what is wrong with it, if anything. -/
def vetURL (c : Client) (env : Env) (k : ℕ) (u : Url) : Option FetchErr :=
  let host := env.toLower u.hostname
  if ¬ equalFold u.scheme (ascii "https") then some (.scheme u.scheme)
  else if u.user.isSome then some (.credentials u.host)
  else if host.isEmpty then some .noHost
  else if ¬ u.port.isEmpty ∧ u.port ≠ ascii "443" then some (.port host u.port)
  else if numericHost host ∧ (env.parseAddr host).isNone then some (.numericHost host)
  else if ¬ c.allows host then some (.notAllowed host)
  else match env.resolve (.vet k) host with
    | none => some (.unresolved host)
    | some addrs =>
      if addrs.isEmpty then some (.noAddresses host)
      else (firstBlocked addrs).map (fun b => .blockedAddress host b.1 b.2)

/-- The check before a redirect, with the number of requests made. -/
def checkRedirect (c : Client) (env : Env) (via : ℕ) (u : Url) : Option FetchErr :=
  if c.maxRedirects ≤ via then some (.redirects c.maxRedirects) else c.vetURL env via u

end Client

/-- What a fetch does to the outside: it dials an address of an answer, or requests a URL. -/
inductive Event
  | dialled (addr : Addr) (answer : List Addr)
  | requested (u : Url)

/-- The addresses that are dialled one by one until one answers. -/
def attempts (up : Addr → Bool) : List Addr → List Addr
  | [] => []
  | a :: as => if up a then [a] else a :: attempts up as

/-- The connection attempts of one dial. The name is looked up again, and the whole answer is judged
before any of it is dialled. -/
def dial (env : Env) (k j : ℕ) (d : Dial) : List Event :=
  match env.splitAddress d.address with
  | none => []
  | some (host,_) => match env.resolve (.dial k j) host with
    | none => []
    | some addrs =>
      if (firstBlocked addrs).isSome then []
      else (attempts d.up addrs).map (fun a => .dialled a addrs)

/-- The k-th request of a fetch, with the connections it asks for. -/
def request (env : Env) (k : ℕ) (u : Url) : List Event :=
  .requested u :: ((env.dials k).zipIdx.flatMap (fun d => dial env k d.2 d.1))

namespace Client

/-- Request a URL and follow the redirects that are answered, one after the other. -/
def follow (c : Client) (env : Env) : ℕ → Url → List Url → List Event × Option FetchErr
  | k,u,[] => (request env k u,none)
  | k,u,next :: hops => match c.checkRedirect env (k+1) next with
    | some err => (request env k u,some err)
    | none => (request env k u ++ (c.follow env (k+1) next hops).1,(c.follow env (k+1) next hops).2)

/-- The requests of a fetch, to which these redirects are the answers. -/
def fetch (c : Client) (env : Env) (raw : Bytes) (hops : List Url) : List Event × Option FetchErr :=
  if ¬ c.enabled then ([],some .disabled)
  else match env.parse (trimSpace raw) with
    | none => ([],some .notURL)
    | some u => match c.vetURL env 0 u with
      | some err => ([],some err)
      | none => c.follow env 0 u hops

end Client

end Manvi.Fetch
