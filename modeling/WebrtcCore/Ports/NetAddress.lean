import WebrtcCore.Verified.Bytes
import WebrtcCore.Verified.StrictOrder

/-!
# The order and the hash of socket addresses

Port of the comparisons and hashes of `rtc::IPAddress` and `rtc::SocketAddress`.

An address is kept in the bytes of its union, as `memcmp` and `HashIP` see them.
`IPAddress.opLt` compares IPv4 addresses as numbers in host order and IPv6 addresses
by `memcmp`; both are the order of the bytes (`opLt_iff`).  A host name counts only
next to an address that is unspecified or ANY, so the key of a socket address has an
empty name elsewhere.
-/

namespace WebrtcCore.Ports.NetAddress

open Verified Bytes Heap StrictOrder

/-! ### Addresses -/

/-- `struct in_addr`, in network order. -/
abbrev InAddr := Vector UInt8 4

abbrev In6Addr := Vector UInt8 16

/-- `rtc::IPAddress`: the family, with the member of the union that goes with it. -/
inductive IPAddress where
  | unspec
  | inet (ip4 : InAddr)
  | inet6 (ip6 : In6Addr)
deriving DecidableEq, Repr

/-- The sign of the result of `memcmp` on two areas of one size. -/
def memcmp : List UInt8 → List UInt8 → Int
  | x :: xs, y :: ys => if x < y then -1 else if y < x then 1 else memcmp xs ys
  | _, _ => 0

/-- `NetworkToHost32` of an address in memory. -/
def networkToHost32 (addr : InAddr) : Nat := valueBE addr.toList

/-- `IPAddress(uint32_t ip_in_host_byte_order)`. -/
def IPAddress.ofHostOrder (ip : UInt32) : IPAddress :=
  .inet ⟨⟨bytesBE 4 ip.toNat⟩, bytesBE_length 4 ip.toNat⟩

def IPAddress.v4AddressAsHostOrderInteger : IPAddress → UInt32
  | .inet ip4 => UInt32.ofNat (networkToHost32 ip4)
  | _ => 0

def IPAddress.opEq : IPAddress → IPAddress → Bool
  | .inet a, .inet b => memcmp a.toList b.toList = 0
  | .inet6 a, .inet6 b => memcmp a.toList b.toList = 0
  | .unspec, .unspec => true
  | _, _ => false

/-- `operator<`: unspecified addresses, then IPv4, then IPv6. -/
def IPAddress.opLt : IPAddress → IPAddress → Bool
  | .inet a, .inet b => networkToHost32 a < networkToHost32 b
  | .inet6 a, .inet6 b => memcmp a.toList b.toList < 0
  | .unspec, .unspec => false
  | .unspec, _ => true
  | .inet _, .inet6 _ => true
  | _, _ => false

def kV4MappedPrefix : In6Addr := #v[0, 0, 0, 0, 0, 0, 0, 0, 0, 0, 0xFF, 0xFF, 0, 0, 0, 0]

def in6addrAny : In6Addr := Vector.replicate 16 0

def ipIsUnspec : IPAddress → Bool
  | .unspec => true
  | _ => false

def ipIsAny : IPAddress → Bool
  | .inet ip4 => (IPAddress.inet ip4).opEq (.inet (Vector.replicate 4 0))
  | .inet6 ip6 =>
    (IPAddress.inet6 ip6).opEq (.inet6 in6addrAny) ||
      (IPAddress.inet6 ip6).opEq (.inet6 kV4MappedPrefix)
  | .unspec => false

/-- The `uint32_t` at a place in memory, on a little-endian host. -/
def loadUInt32 (bytes : List UInt8) (at_ : Nat) : BitVec 64 :=
  BitVec.ofNat 64 (valueBE ((bytes.drop at_).take 4).reverse)

def hashIP : IPAddress → BitVec 64
  | .inet ip4 => loadUInt32 ip4.toList 0
  | .inet6 ip6 =>
    loadUInt32 ip6.toList 0 ^^^ loadUInt32 ip6.toList 4 ^^^ loadUInt32 ip6.toList 8 ^^^
      loadUInt32 ip6.toList 12
  | .unspec => 0

structure SocketAddress where
  hostname : List UInt8 := []
  ip : IPAddress := .unspec
  port : UInt16 := 0
  scopeId : Int := 0
  literal : Bool := false
deriving DecidableEq, Repr

namespace SocketAddress

/-- `SocketAddress(uint32_t ip_as_host_order_integer, int port)`. -/
def ofHostOrder (ip : UInt32) (port : UInt16) : SocketAddress :=
  { ip := .ofHostOrder ip, port }

def isUnresolvedIP (a : SocketAddress) : Bool :=
  ipIsUnspec a.ip && !a.literal && !a.hostname.isEmpty

def equalIPs (a b : SocketAddress) : Bool :=
  a.ip.opEq b.ip && ((!ipIsAny a.ip && !ipIsUnspec a.ip) || a.hostname == b.hostname)

def equalPorts (a b : SocketAddress) : Bool := a.port == b.port

def opEq (a b : SocketAddress) : Bool := a.equalIPs b && a.equalPorts b

def opLt (a b : SocketAddress) : Bool :=
  if !a.ip.opEq b.ip then a.ip.opLt b.ip
  else if (ipIsAny a.ip || ipIsUnspec a.ip) && a.hostname != b.hostname then
    a.hostname < b.hostname
  else a.port < b.port

/-- `port_ | (port_ << 16)` is an `int`, and becomes a `size_t` with its sign. -/
def hash (a : SocketAddress) : BitVec 64 :=
  hashIP a.ip ^^^
    ((a.port.toBitVec.setWidth 32 ||| (a.port.toBitVec.setWidth 32 <<< 16)).signExtend 64)

end SocketAddress

/-! ### The order of the bytes -/

theorem memcmp_spec {xs ys : List UInt8} (hlen : xs.length = ys.length) :
    (memcmp xs ys < 0 ↔ xs < ys) ∧ (memcmp xs ys = 0 ↔ xs = ys) := by
  induction xs generalizing ys with
  | nil =>
    rw [List.length_eq_zero_iff.mp hlen.symm]
    simp [memcmp]
  | cons x xs ih =>
    cases ys with
    | nil => simp at hlen
    | cons y ys =>
      simp only [List.length_cons, Nat.succ.injEq] at hlen
      rw [List.cons_lt_cons_iff, memcmp]
      by_cases hxy : x < y
      · have hne : x ≠ y := strictTotal_uint8.ne_of_lt hxy
        simp [hxy, hne]
      · by_cases hyx : y < x
        · have hne : x ≠ y := (strictTotal_uint8.ne_of_lt hyx).symm
          simp [hxy, hyx, hne]
        · have heq : x = y := strictTotal_uint8.connected x y hxy hyx
          simp [heq, ih hlen]

/-- An address by its family and its bytes. -/
def IPAddress.key : IPAddress → Nat × List UInt8
  | .unspec => (0, [])
  | .inet ip4 => (1, ip4.toList)
  | .inet6 ip6 => (2, ip6.toList)

variable (a b : IPAddress)

theorem IPAddress.key_inj (h : a.key = b.key) : a = b := by
  cases a <;> cases b <;> simp_all [IPAddress.key, Vector.toList_inj]

/-- Families in turn, then the bytes. -/
def keyLt : Nat × List UInt8 → Nat × List UInt8 → Prop := Pair (fun a b => a < b) (fun a b => a < b)

theorem strictTotal_keyLt : StrictTotal keyLt :=
  strictTotal_nat.pair (strictTotal_list strictTotal_uint8)

theorem IPAddress.opLt_iff : a.opLt b = true ↔ keyLt a.key b.key := by
  cases a with
  | unspec =>
    cases b <;> simp [IPAddress.opLt, keyLt, Pair, IPAddress.key]
  | inet a =>
    cases b with
    | inet b =>
      have hlen : a.toList.length = b.toList.length := by simp
      have h := valueBE_lt_valueBE_iff hlen
      simp [IPAddress.opLt, networkToHost32, h, keyLt, Pair, IPAddress.key]
    | _ => simp [IPAddress.opLt, keyLt, Pair, IPAddress.key]
  | inet6 a =>
    cases b with
    | inet6 b =>
      have hlen : a.toList.length = b.toList.length := by simp
      have h := (memcmp_spec hlen).1
      simp [IPAddress.opLt, h, keyLt, Pair, IPAddress.key]
    | _ => simp [IPAddress.opLt, keyLt, Pair, IPAddress.key]

theorem IPAddress.opEq_iff : a.opEq b = true ↔ a = b := by
  have hbytes {n : Nat} (a b : Vector UInt8 n) :
      decide (memcmp a.toList b.toList = 0) = true ↔ a = b := by
    have hlen : a.toList.length = b.toList.length := by simp
    rw [decide_eq_true_iff, (memcmp_spec hlen).2, Vector.toList_inj]
  cases a with
  | unspec =>
    cases b with
    | unspec => exact iff_of_true rfl rfl
    | _ => exact iff_of_false Bool.false_ne_true nofun
  | inet a =>
    cases b with
    | inet b => exact (hbytes a b).trans ⟨congrArg _, IPAddress.inet.inj⟩
    | _ => exact iff_of_false Bool.false_ne_true nofun
  | inet6 a =>
    cases b with
    | inet6 b => exact (hbytes a b).trans ⟨congrArg _, IPAddress.inet6.inj⟩
    | _ => exact iff_of_false Bool.false_ne_true nofun

theorem strictTotal_opLt : StrictTotal (fun a b : IPAddress => a.opLt b = true) :=
  strictTotal_keyLt.of_key IPAddress.key_inj IPAddress.opLt_iff

theorem IPAddress.ofHostOrder_v4Address (ip4 : InAddr) :
    IPAddress.ofHostOrder (IPAddress.inet ip4).v4AddressAsHostOrderInteger = .inet ip4 := by
  have hlen : ip4.toList.length = 4 := by simp
  have hlt : valueBE ip4.toList < 2 ^ 32 := by
    have h := valueBE_lt ip4.toList
    rw [hlen] at h
    exact h
  have hbytes : bytesBE 4 (UInt32.ofNat (networkToHost32 ip4)).toNat = ip4.toList := by
    rw [networkToHost32, UInt32.toNat_ofNat', Nat.mod_eq_of_lt hlt]
    have h := bytesBE_valueBE ip4.toList
    rw [hlen] at h
    exact h
  apply IPAddress.key_inj
  simp only [IPAddress.key]
  rw [← hbytes]
  rfl

/-! ### Socket addresses -/

/-- The host name, where the comparisons look at it. -/
def SocketAddress.countedName (a : SocketAddress) : List UInt8 :=
  if ipIsAny a.ip || ipIsUnspec a.ip then a.hostname else []

def SocketAddress.key (a : SocketAddress) : IPAddress × List UInt8 × UInt16 :=
  (a.ip, a.countedName, a.port)

def addressLt : IPAddress × List UInt8 × UInt16 → IPAddress × List UInt8 × UInt16 → Prop :=
  Pair (fun a b => a.opLt b = true) (Pair (fun a b => a < b) (fun a b => a < b))

open SocketAddress

theorem strictTotal_addressLt : StrictTotal addressLt :=
  strictTotal_opLt.pair ((strictTotal_list strictTotal_uint8).pair strictTotal_uint16)

theorem IPAddress.opEq_eq : a.opEq b = decide (a = b) := by
  rw [Bool.eq_iff_iff, IPAddress.opEq_iff, decide_eq_true_eq]

theorem SocketAddress.opEq_iff (a b : SocketAddress) : a.opEq b = true ↔ a.key = b.key := by
  unfold opEq equalIPs equalPorts key countedName
  rw [IPAddress.opEq_eq]
  by_cases hip : a.ip = b.ip
  · rw [hip]
    cases hany : ipIsAny b.ip <;> cases hunspec : ipIsUnspec b.ip <;> simp
  · simp [hip]

theorem SocketAddress.opLt_iff (a b : SocketAddress) : a.opLt b = true ↔ addressLt a.key b.key := by
  unfold opLt key countedName addressLt Pair
  rw [IPAddress.opEq_eq]
  by_cases hip : a.ip = b.ip
  · have hirrefl := strictTotal_opLt.irrefl b.ip
    rw [hip]
    cases hcounts : ipIsAny b.ip || ipIsUnspec b.ip with
    | true =>
      by_cases hname : a.hostname = b.hostname
      · simp [hirrefl, hname]
      · simp [hirrefl, hname]
    | false => simp [hirrefl]
  · simp [hip]

/-- **Socket addresses and IP addresses as keys.**  `operator<` on socket addresses is a
strict weak order in which two addresses are incomparable exactly when `operator==` holds;
`operator==` is an equivalence; equal addresses have equal hashes; and `operator<` on IP
addresses is a strict total order up to `operator==`. -/
theorem addresses_are_ordered :
    StrictWeak (fun a b : SocketAddress => a.opLt b = true) ∧
      (∀ a b : SocketAddress, ¬ a.opLt b = true ∧ ¬ b.opLt a = true ↔ a.opEq b = true) ∧
      Equivalence (fun a b : SocketAddress => a.opEq b = true) ∧
      (∀ a b : SocketAddress, a.opEq b = true → a.hash = b.hash) ∧
      (∀ a : IPAddress, ¬ a.opLt a = true) ∧
      (∀ a b c : IPAddress, a.opLt b = true → b.opLt c = true → a.opLt c = true) ∧
      ∀ a b : IPAddress, ¬ a.opLt b = true ∧ ¬ b.opLt a = true ↔ a.opEq b = true := by
  refine ⟨strictTotal_addressLt.strictWeak opLt_iff, ?_, ?_, ?_,
    strictTotal_opLt.irrefl, strictTotal_opLt.trans, ?_⟩
  · intro a b
    rw [opEq_iff]
    exact strictTotal_addressLt.incomparable_iff opLt_iff a b
  · constructor
    · intro a
      rw [opEq_iff]
    · intro a b h
      rw [opEq_iff] at h ⊢
      exact h.symm
    · intro a b c hab hbc
      rw [opEq_iff] at hab hbc ⊢
      exact hab.trans hbc
  · intro a b h
    rw [opEq_iff, key, key, Prod.mk.injEq, Prod.mk.injEq] at h
    rw [SocketAddress.hash, SocketAddress.hash, h.1, h.2.2]
  · intro a b
    rw [IPAddress.opEq_iff]
    constructor
    · intro h
      exact strictTotal_opLt.connected a b h.1 h.2
    · intro h
      rw [h]
      exact ⟨strictTotal_opLt.irrefl b, strictTotal_opLt.irrefl b⟩

-- the name next to a specified address makes no difference, next to ANY it does
example : opEq { hostname := [97], ip := .ofHostOrder 0x7F000001 }
    { hostname := [98], ip := .ofHostOrder 0x7F000001 } = true := by decide

example : opLt { hostname := [97], ip := .inet6 kV4MappedPrefix }
    { hostname := [98], ip := .inet6 kV4MappedPrefix } = true := by decide

end WebrtcCore.Ports.NetAddress
