import Mathlib

/-! The addresses that a fetch must not reach. -/
namespace Manvi.Fetch

/-- An IP address. An IPv6 one may name a zone. -/
inductive Addr
  | invalid
  | v4 (bits : BitVec 32)
  | v6 (bits : BitVec 128) (zone : String)
  deriving DecidableEq

def ipv4 (a b c d : ℕ) : BitVec 32 := BitVec.ofNat 32 (((a*256+b)*256+c)*256+d)

/-- An address by its groups of 16 bits, the first ones first and zeros behind them. -/
def ipv6 (groups : List ℕ) : BitVec 128 :=
  BitVec.ofNat 128 (((List.range 8).map (fun i => groups.getD i 0)).foldl (fun n g => n*65536+g) 0)

inductive Prefix
  | v4 (bits : BitVec 32) (len : ℕ)
  | v6 (bits : BitVec 128) (len : ℕ)

namespace Prefix

/-- A prefix holds no address of the other family, and none that names a zone. -/
def contains : Prefix → Addr → Bool
  | .v4 bits len,.v4 addr => addr >>> (32-len) = bits >>> (32-len)
  | .v6 bits len,.v6 addr zone => zone = "" ∧ addr >>> (128-len) = bits >>> (128-len)
  | _,_ => false

end Prefix

namespace Addr

/-- An IPv4 address embedded in an IPv6 one, by itself. -/
def unmap : Addr → Addr
  | .v6 bits zone => if bits >>> 32 = 0xffff then .v4 (bits.setWidth 32) else .v6 bits zone
  | a => a

def withoutZone : Addr → Addr
  | .v6 bits _ => .v6 bits ""
  | a => a

def isUnspecified (a : Addr) : Bool := a = .v4 0 ∨ a = .v6 0 ""

def isLoopback : Addr → Bool
  | .invalid => false
  | .v4 bits => (Prefix.v4 (ipv4 127 0 0 0) 8).contains (.v4 bits)
  | .v6 bits _ => bits = 1

def isPrivate (a : Addr) : Bool :=
  [Prefix.v4 (ipv4 10 0 0 0) 8,.v4 (ipv4 172 16 0 0) 12,.v4 (ipv4 192 168 0 0) 16,
    .v6 (ipv6 [0xfc00]) 7].any (·.contains a)

def isLinkLocalUnicast (a : Addr) : Bool :=
  [Prefix.v4 (ipv4 169 254 0 0) 16,.v6 (ipv6 [0xfe80]) 10].any (·.contains a)

def isLinkLocalMulticast : Addr → Bool
  | .invalid => false
  | .v4 bits => (Prefix.v4 (ipv4 224 0 0 0) 24).contains (.v4 bits)
  | .v6 bits _ => (bits >>> 112) &&& 0xff0f = 0xff02

def isInterfaceLocalMulticast : Addr → Bool
  | .v6 bits _ => (bits >>> 112) &&& 0xff0f = 0xff01
  | _ => false

def isMulticast (a : Addr) : Bool :=
  [Prefix.v4 (ipv4 224 0 0 0) 4,.v6 (ipv6 [0xff00]) 8].any (·.contains a)

end Addr

/-- The ranges without a predicate of their own, each with the reason it is refused. -/
def reservedPrefixes : List (Prefix × String) := [
  (.v4 (ipv4 0 0 0 0) 8,"\"this network\" — 0.x.y.z reaches the local host on common stacks"),
  (.v4 (ipv4 100 64 0 0) 10,"carrier-grade NAT"),
  (.v4 (ipv4 192 0 0 0) 24,"IETF protocol assignments"),
  (.v4 (ipv4 192 0 2 0) 24,"documentation range"),
  (.v4 (ipv4 192 88 99 0) 24,"deprecated 6to4 relay anycast"),
  (.v4 (ipv4 198 18 0 0) 15,"benchmarking range"),
  (.v4 (ipv4 198 51 100 0) 24,"documentation range"),
  (.v4 (ipv4 203 0 113 0) 24,"documentation range"),
  (.v4 (ipv4 240 0 0 0) 4,"reserved"),
  (.v6 (ipv6 []) 96,"IPv4-compatible or unspecified — a deprecated embedding of the v4 space"),
  (.v6 (ipv6 [0,0,0,0,0xffff]) 96,"SIIT IPv4-translated — a translation of the v4 space"),
  (.v6 (ipv6 [0x64,0xff9b]) 96,"NAT64 — a translation of the v4 space"),
  (.v6 (ipv6 [0x64,0xff9b,1]) 48,"local-use NAT64 — a translation of the v4 space"),
  (.v6 (ipv6 [0x2002]) 16,"6to4 — a tunnel to an embedded v4 address"),
  (.v6 (ipv6 [0x2001]) 23,"IETF protocol assignments, including Teredo and ORCHID"),
  (.v6 (ipv6 [0x2001,0xdb8]) 32,"documentation range"),
  (.v6 (ipv6 [0x3fff]) 20,"documentation range"),
  (.v6 (ipv6 [0x100]) 64,"discard-only"),
  (.v6 (ipv6 [0x5f00]) 16,"segment-routing SIDs"),
  (.v6 (ipv6 [0xfec0]) 10,"deprecated site-local")]

/-- Why an address must not be reached, if it must not. -/
def blockedAddr (addr : Addr) : Option String :=
  let addr := addr.unmap.withoutZone
  if addr = .invalid then some "not a valid address"
  else if addr.isUnspecified then some "the unspecified address"
  else if addr.isLoopback then some "loopback"
  else if addr.isPrivate then some "a private network"
  else if addr.isLinkLocalUnicast || addr.isLinkLocalMulticast then
    some "link-local — this range holds cloud instance metadata"
  else if addr.isInterfaceLocalMulticast || addr.isMulticast then some "multicast"
  else (reservedPrefixes.find? (fun blocked => blocked.1.contains addr)).map Prod.snd

example : blockedAddr (.v6 (ipv6 [0,0,0,0,0,0xffff,0xa9fe,0xa9fe]) "eth0") =
    some "link-local — this range holds cloud instance metadata" := by decide

end Manvi.Fetch
