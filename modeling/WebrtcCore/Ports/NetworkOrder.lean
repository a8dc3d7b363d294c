import Mathlib.Data.Set.Basic
import WebrtcCore.Ports.NetworkList

/-!
# The orders of networks (`rtc_base/network.cc`)

`MergeNetworkList` sorts what was found by `CompareNetworks`, which looks at the prefixes of
two networks only if their names and the lengths of the prefixes are equal, and what it
merged by `SortNetworks`.
-/

namespace WebrtcCore.Ports.NetworkOrder

open Verified Heap StrictOrder NetAddress NetworkList

def compareNetworks (a b : NetworkKey) : Bool :=
  if a.prefixLength = b.prefixLength then
    if a.name = b.name then a.networkPrefix.opLt b.networkPrefix else a.name < b.name
  else a.name < b.name

/-! ## Sorting by type -/

/-- The value of an enumerator. -/
def adapterTypeValue : AdapterType → Nat
  | .unknown => 0
  | .ethernet => 1
  | .wifi => 2
  | .cellular => 4
  | .vpn => 8
  | .loopback => 16
  | .any => 32
  | .cellular2G => 64
  | .cellular3G => 128
  | .cellular4G => 256
  | .cellular5G => 512

/-- `IPIsHelper`: the bytes of the prefix are the first of the address. -/
def ipIsHelper (addr : In6Addr) (tomatch : List UInt8) : Bool :=
  memcmp (addr.toList.take tomatch.length) tomatch = 0

def ipAddressPrecedence : IPAddress → Int
  | .inet _ => 30
  | .inet6 addr =>
    if ipIsHelper addr (List.replicate 15 0 ++ [1]) then 60
    else if addr.get 0 &&& 0xFE = 0xFC then 50
    else if ipIsHelper addr (kV4MappedPrefix.toList.take 12) then 30
    else if ipIsHelper addr [0x20, 0x02] then 20
    else if ipIsHelper addr [0x20, 0x01, 0, 0] then 10
    else if ipIsHelper addr (List.replicate 12 0) ∨
        (addr.get 0 = 0xFE ∧ addr.get 1 &&& 0xC0 = 0xC0) ∨ ipIsHelper addr [0x3F, 0xFE] then 1
    else 40
  | .unspec => 0

/-- What `SortNetworks` reads of a network. -/
structure SortedNetwork where
  type : AdapterType
  bestIp : IPAddress
  key : List UInt8

def sortNetworks (a b : SortedNetwork) : Bool :=
  if adapterTypeValue a.type ≠ adapterTypeValue b.type then
    adapterTypeValue a.type < adapterTypeValue b.type
  else if ipAddressPrecedence a.bestIp ≠ ipAddressPrecedence b.bestIp then
    ipAddressPrecedence a.bestIp > ipAddressPrecedence b.bestIp
  else a.key < b.key

theorem sortNetworks_strictWeak :
    StrictWeak fun a b : SortedNetwork => sortNetworks a b = true := by
  refine (strictTotal_nat.pair (strictTotal_int.flip.pair
    (strictTotal_list strictTotal_uint8))).strictWeak
    (f := fun n => (adapterTypeValue n.type, ipAddressPrecedence n.bestIp, n.key)) fun a b => ?_
  simp only [sortNetworks, Pair]
  split
  · simp_all
  · split <;> simp_all

/-! ## Comparing by name -/

theorem strictTotal_name : StrictTotal fun a b : List UInt8 => a < b :=
  strictTotal_list strictTotal_uint8

theorem compareNetworks_iff (a b : NetworkKey) :
    compareNetworks a b = true ↔ a.name < b.name ∨ a.name = b.name ∧
      a.prefixLength = b.prefixLength ∧ a.networkPrefix.opLt b.networkPrefix = true := by
  unfold compareNetworks
  split
  · split <;> simp_all
  · simp_all

/-- **The first order** is a strict weak one exactly if networks of one name whose prefixes are
of different lengths include no two of one length and different prefixes; the second always is. -/
theorem orders_are_strictWeak (S : Set NetworkKey) :
    (StrictWeak (fun a b : S => compareNetworks a b = true) ↔
      ∀ a ∈ S, ∀ b ∈ S, ∀ c ∈ S, a.name = b.name → a.name = c.name →
        a.prefixLength = c.prefixLength → a.prefixLength ≠ b.prefixLength →
        a.networkPrefix.opLt c.networkPrefix = false) ∧
    StrictWeak fun a b : SortedNetwork => sortNetworks a b = true := by
  refine ⟨⟨fun hweak a ha b hb c hc hab hac hlen hne => ?_, fun hS => ⟨?_, ?_⟩⟩,
    sortNetworks_strictWeak⟩
  · rw [← Bool.not_eq_true]
    intro hlt
    refine hweak.neg_trans ⟨a, ha⟩ ⟨b, hb⟩ ⟨c, hc⟩ ?_ ?_ ?_
    · simp [compareNetworks_iff, hab, hne]
    · simp [compareNetworks_iff, ← hab, ← hac, ← hlen, hne.symm]
    · exact (compareNetworks_iff a c).2 (.inr ⟨hac, hlen, hlt⟩)
  · rintro a b hab hba
    rw [compareNetworks_iff] at hab hba
    rcases hab with hab | ⟨hname, -, hprefix⟩ <;> rcases hba with hba | ⟨hname', -, hprefix'⟩
    · exact strictTotal_name.asymm hab hba
    · exact strictTotal_name.ne_of_lt hab hname'.symm
    · exact strictTotal_name.ne_of_lt hba hname.symm
    · exact strictTotal_opLt.asymm hprefix hprefix'
  · rintro ⟨a, ha⟩ ⟨b, hb⟩ ⟨c, hc⟩ hab hbc hac
    rw [compareNetworks_iff, not_or] at hab hbc
    rw [compareNetworks_iff] at hac
    rcases hac with hname | ⟨hname, hlen, hprefix⟩
    · exact strictTotal_name.neg_trans hab.1 hbc.1 hname
    · have hname' : a.name = b.name := strictTotal_name.connected _ _ hab.1 (hname ▸ hbc.1)
      by_cases hlen' : a.prefixLength = b.prefixLength
      · exact strictTotal_opLt.neg_trans (fun h => hab.2 ⟨hname', hlen', h⟩)
          (fun h => hbc.2 ⟨hname'.symm.trans hname, hlen'.symm.trans hlen, h⟩) hprefix
      · exact Bool.false_ne_true ((hS a ha b hb c hc hname' hname hlen hlen').symm.trans hprefix)

/-- A network of one address; the prefix is its first three bytes or two. -/
def eth0 (third : UInt8) (prefixLength : Int) : NetworkKey :=
  ⟨[0x65, 0x74, 0x68, 0x30], .inet #v[10, 0, third, 0], prefixLength⟩

/-- The networks of an interface are ordered, and both are incomparable to a third. -/
theorem compareNetworks_not_strictWeak :
    ¬ StrictWeak fun a b : NetworkKey => compareNetworks a b = true := by
  intro h
  exact h.neg_trans (eth0 1 24) (eth0 0 16) (eth0 2 24) (by decide) (by decide) (by decide)

end WebrtcCore.Ports.NetworkOrder
