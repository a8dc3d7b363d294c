import Mathlib.Data.List.Perm.Subperm
import WebrtcCore.Ports.NetAddress
import WebrtcCore.Verified.ObjectStore
import WebrtcCore.Verified.OrderedMap
import WebrtcCore.Verified.Simulation

/-!
# The networks of the network manager

Port of `NetworkManagerBase::MergeNetworkList` and of the parts of `Network` that it uses.  The
objects live in a store; the manager and the caller hold pointers to them.  The order of the keys
and of what the two sorts leave is open (`Orders`), as nothing depends on it.

`SetIPs` takes the addresses of a network for unchanged when there are as many as before and each
of them was there before.  When the newest list gives an address twice, another one can have gone
without being noticed.
-/

namespace WebrtcCore.Ports.NetworkList

open Verified Ports.NetAddress ObjectStore OrderedMap Simulation List Option
  Verified.StrictOrder

/-! ### Networks -/

structure InterfaceAddress where
  ip : IPAddress
  ipv6Flags : Int := 0
deriving DecidableEq, Repr

def InterfaceAddress.opEq (a b : InterfaceAddress) : Bool :=
  a.ipv6Flags == b.ipv6Flags && a.ip.opEq b.ip

inductive AdapterType where
  | unknown
  | ethernet
  | wifi
  | cellular
  | vpn
  | loopback
  | any
  | cellular2G
  | cellular3G
  | cellular4G
  | cellular5G
deriving DecidableEq, Repr

def isCellular : AdapterType → Bool
  | .cellular | .cellular2G | .cellular3G | .cellular4G | .cellular5G => true
  | _ => false

def shouldAdapterChangeTriggerNetworkChange (oldType newType : AdapterType) : Bool :=
  !(isCellular oldType && isCellular newType)

inductive NetworkPreference where
  | neutral
  | notPreferred
deriving DecidableEq, Repr

/-- What `MakeNetworkKey` makes a key of. -/
structure NetworkKey where
  name : List UInt8
  networkPrefix : IPAddress
  prefixLength : Int
deriving DecidableEq, Repr

structure Network where
  key : NetworkKey
  ips : List InterfaceAddress := []
  type : AdapterType := .unknown
  underlyingTypeForVpn : AdapterType := .unknown
  preference : Int := 0
  active : Bool := true
  id : UInt16 := 0
  networkPreference : NetworkPreference := .neutral
deriving DecidableEq, Repr

namespace Network

/-- `SetIPs`, with what it returns. -/
def setIPs (n : Network) (ips : List InterfaceAddress) (changed : Bool) : Network × Bool :=
  ({ n with ips },
    changed || ips.length != n.ips.length ||
      ips.any fun ip => !(n.ips.any fun old => old.opEq ip))

def setType (n : Network) (type : AdapterType) : Network :=
  if n.type = type then n
  else
    { n with
      type
      underlyingTypeForVpn := if type = .vpn then n.underlyingTypeForVpn else .unknown }

end Network

/-! ### The manager -/

abbrev Ptr := Nat

/-- The orders of strings and of sorted lists. -/
structure Orders where
  keyLt : NetworkKey → NetworkKey → Bool
  total : StrictTotal fun a b => keyLt a b = true
  /-- `absl::c_sort(list, CompareNetworks)`. -/
  compareNetworks : Store Network → List Ptr → List Ptr
  compare_perm : ∀ objects list, (compareNetworks objects list).Perm list
  /-- `absl::c_sort(networks_, SortNetworks)`. -/
  sortNetworks : Store Network → List Ptr → List Ptr
  sort_perm : ∀ objects list, (sortNetworks objects list).Perm list

abbrev Orders.Lt (o : Orders) (a b : NetworkKey) : Prop := o.keyLt a b = true

structure AddressList where
  net : Ptr
  ips : List InterfaceAddress
deriving DecidableEq, Repr

structure Stats where
  ipv4NetworkCount : Nat := 0
  ipv6NetworkCount : Nat := 0
deriving DecidableEq, Repr

/-- The manager, and the objects of everybody. -/
structure NetworkManagerBase where
  objects : Store Network := fun _ => none
  networks : List Ptr := []
  networksMap : List (NetworkKey × Ptr) := []
  nextAvailableNetworkId : UInt16 := 1
  signalNetworkPreferenceChange : Bool := false

/-- `consolidated_address_list` while it is built. -/
structure Consolidation where
  objects : Store Network
  lists : List (NetworkKey × AddressList) := []
  stats : Stats := {}

section

variable (o : Orders)

/-- One iteration of the first loop.  The first address is read for the statistics. -/
def consolidate (c : Consolidation) (ptr : Ptr) : Option Consolidation :=
  (c.objects ptr).bind fun network =>
    match c.lists.lookup network.key with
    | none =>
      network.ips.head?.map fun first =>
        { c with
          lists := assign o.Lt network.key
            ⟨ptr, network.ips⟩ c.lists
          stats :=
            match first.ip with
            | .inet _ => { c.stats with ipv4NetworkCount := c.stats.ipv4NetworkCount + 1 }
            | _ => { c.stats with ipv6NetworkCount := c.stats.ipv6NetworkCount + 1 } }
    | some current =>
      (c.objects.delete ptr).map fun objects =>
        { c with
          objects
          lists := assign o.Lt network.key
            ⟨current.net, current.ips ++ network.ips⟩ c.lists }

/-- What the second loop changes. -/
structure Merge where
  objects : Store Network
  networksMap : List (NetworkKey × Ptr)
  nextAvailableNetworkId : UInt16
  mergedList : List Ptr := []
  changed : Bool := false

/-- A network that is in the map already takes over the type and the preference of the
new one; with whether that is a change. -/
def Network.adopt (existingNet net : Network) (signalPreference changed : Bool) :
    Network × Bool :=
  let newType := net.type ≠ .unknown ∧ net.type ≠ existingNet.type
  let changed := changed ||
    (newType && shouldAdapterChangeTriggerNetworkChange existingNet.type net.type)
  let existingNet := if newType then existingNet.setType net.type else existingNet
  let changed := changed || !existingNet.active
  ({ existingNet with networkPreference := net.networkPreference },
    changed || (net.networkPreference != existingNet.networkPreference && signalPreference))

/-- The branch for a network that is in the map.  The pointers may be the same. -/
def reuseNetwork (signalPreference : Bool) (objects : Store Network) (existing net : Ptr)
    (ips : List InterfaceAddress) (changed : Bool) : Option (Store Network × Bool) :=
  (objects existing).bind fun existingNet =>
    let r := existingNet.setIPs ips changed
    let objects := objects.put existing r.1
    (objects net).bind fun newNet =>
      let r := r.1.adopt newNet signalPreference r.2
      let objects := objects.put existing r.1
      if existing ≠ net then (objects.delete net).map fun objects => (objects, r.2)
      else some (objects, r.2)

/-- One iteration of the second loop. -/
def mergeEntry (signalPreference : Bool) (m : Merge) (kv : NetworkKey × AddressList) :
    Option Merge :=
  match m.networksMap.lookup kv.1 with
  | none =>
    (m.objects.modify kv.2.net fun net =>
        (Network.setIPs { net with id := m.nextAvailableNetworkId } kv.2.ips true).1).map
      fun objects =>
        { objects
          networksMap := assign o.Lt kv.1 kv.2.net m.networksMap
          nextAvailableNetworkId := m.nextAvailableNetworkId + 1
          mergedList := m.mergedList ++ [kv.2.net]
          changed := true }
  | some existing =>
    (reuseNetwork signalPreference m.objects existing kv.2.net kv.2.ips m.changed).map
      fun r =>
        { m with
          objects := r.1
          mergedList := m.mergedList ++ [existing]
          changed := r.2 }

/-- One iteration of the loop that resets the active states. -/
def resetActive (networks : List Ptr) (objects : Store Network) (kv : NetworkKey × Ptr) :
    Option (Store Network) :=
  objects.modify kv.2 fun network => { network with active := networks.contains kv.2 }

/-- The loop over the preferences, which stops at zero. -/
def setPreferences : Nat → Store Network → List Ptr → Option (Store Network)
  | _, objects, [] => some objects
  | pref, objects, network :: networks =>
    (objects.modify network fun n => { n with preference := pref }).bind fun objects =>
      if pref > 0 then setPreferences (pref - 1) objects networks else some objects

def kHighestNetworkPreference : Nat := 127

/-- `MergeNetworkList`, with `*changed` and `*stats`. -/
def mergeNetworkList (s : NetworkManagerBase) (newNetworks : List Ptr) :
    Option (NetworkManagerBase × Bool × Stats) := do
  let c ← exec (consolidate o) { objects := s.objects }
    (o.compareNetworks s.objects newNetworks)
  let m ← exec (mergeEntry o s.signalNetworkPreferenceChange)
    { objects := c.objects, networksMap := s.networksMap,
      nextAvailableNetworkId := s.nextAvailableNetworkId } c.lists
  let s := { s with
    objects := m.objects
    networksMap := m.networksMap
    nextAvailableNetworkId := m.nextAvailableNetworkId }
  if m.changed ∨ m.mergedList.length ≠ s.networks.length then
    let objects ← exec (resetActive m.mergedList) m.objects m.networksMap
    let networks := o.sortNetworks objects m.mergedList
    let objects ← setPreferences kHighestNetworkPreference objects networks
    return ({ s with objects, networks }, true, c.stats)
  else return (s, false, c.stats)

end

/-! ### What a list of networks gives a key -/

def HasKey (objects : Store Network) (key : NetworkKey) (p : Ptr) : Prop :=
  ∃ n, objects p = some n ∧ n.key = key

def hasKey (objects : Store Network) (key : NetworkKey) (p : Ptr) : Bool :=
  (objects p).any fun n => n.key = key

variable {objects : Store Network}

theorem hasKey_iff {key : NetworkKey} {p : Ptr} :
    hasKey objects key p = true ↔ HasKey objects key p := by
  unfold hasKey HasKey
  rw [Option.any_eq_true]
  simp

theorem HasKey.eq {key : NetworkKey} {p : Ptr} {n : Network} (h : HasKey objects key p)
    (hn : objects p = some n) : n.key = key := by
  obtain ⟨n', hn', hkey⟩ := h
  rw [hn] at hn'
  rw [some.inj hn', hkey]

/-- The networks of a list with one key. -/
def members (objects : Store Network) (list : List Ptr) (key : NetworkKey) : List Ptr :=
  list.filter (hasKey objects key)

/-- All addresses that a list gives a key. -/
def addresses (objects : Store Network) (list : List Ptr) (key : NetworkKey) :
    List InterfaceAddress :=
  (members objects list key).flatMap fun p => (objects p).elim [] Network.ips

section

variable {objects : Store Network} {list done : List Ptr} {key : NetworkKey} {p : Ptr}
  {n : Network}

theorem mem_members : p ∈ members objects list key ↔ p ∈ list ∧ HasKey objects key p := by
  rw [members, mem_filter, hasKey_iff]

theorem members_append (hp : objects p = some n) (key : NetworkKey) :
    members objects (done ++ [p]) key =
      members objects done key ++ if n.key = key then [p] else [] := by
  rw [members, filter_append, filter_singleton, hasKey, hp]
  simp [members]

theorem head?_members_append {q : Ptr} (hq : q ≠ p)
    (h : (members objects (done ++ [p]) key).head? = some q) :
    (members objects done key).head? = some q := by
  rw [members, filter_append, head?_append] at h
  rw [members]
  cases hhead : (done.filter (hasKey objects key)).head? with
  | some r =>
    rw [hhead] at h
    exact h
  | none =>
    rw [hhead] at h
    have hmem := mem_filter.mp (mem_of_mem_head? h)
    exact absurd (mem_singleton.mp hmem.1) hq

theorem addresses_append (hp : objects p = some n) (key : NetworkKey) :
    addresses objects (done ++ [p]) key =
      addresses objects done key ++ if n.key = key then n.ips else [] := by
  rw [addresses, members_append hp, flatMap_append, apply_ite (flatMap _), flatMap_singleton, hp]
  rfl

theorem addresses_perm {list' : List Ptr} (h : list'.Perm list) :
    (addresses objects list' key).Perm (addresses objects list key) :=
  (h.filter _).flatMap_right _

end

/-! ### The first loop -/

section Consolidation

variable (o : Orders)

/-- The lists for what is done: the first network of each key is kept, and the others are
deleted. -/
structure Consolidated (objects : Store Network) (done : List Ptr) (c : Consolidation) : Prop where
  sorted : Sorted o.Lt c.lists
  lookup : ∀ key, c.lists.lookup key =
    (members objects done key).head?.map fun p => ⟨p, addresses objects done key⟩
  kept : ∀ q, (q ∈ done → ∃ key, (members objects done key).head? = some q) →
    c.objects q = objects q
  sub : ∀ q n, c.objects q = some n → objects q = some n

variable {o} {objects : Store Network} {done : List Ptr} {c : Consolidation} {p : Ptr}
  {n : Network}

theorem Orders.strictWeak (o : Orders) : Verified.Heap.StrictWeak o.Lt :=
  o.total.strictWeak fun _ _ => Iff.rfl

theorem lookup_append (hp : objects p = some n) (net : Ptr)
    (hnet : (members objects done n.key ++ [p]).head? = some net)
    (lists : List (NetworkKey × AddressList))
    (hlookup : ∀ key, lists.lookup key = (members objects done key).head?.map fun p => ⟨p, addresses
      objects done key⟩) (key : NetworkKey) :
    (assign o.Lt n.key ⟨net, addresses objects done n.key ++ n.ips⟩ lists).lookup key =
      (members objects (done ++ [p]) key).head?.map fun q =>
        ⟨q, addresses objects (done ++ [p]) key⟩ := by
  rw [lookup_assign o.total]
  by_cases hkey : key = n.key
  · rw [if_pos hkey, hkey, members_append hp, addresses_append hp, if_pos rfl, if_pos rfl, hnet]
    rfl
  · rw [if_neg hkey, hlookup, members_append hp, addresses_append hp, if_neg (Ne.symm hkey),
      if_neg (Ne.symm hkey), append_nil, append_nil]

theorem Consolidated.kept_of_ne (h : Consolidated o objects done c) {q : Ptr} (hq : q ≠ p)
    (hfirst : q ∈ done ++ [p] → ∃ key, (members objects (done ++ [p]) key).head? = some q) :
    c.objects q = objects q := by
  apply h.kept
  intro hdone
  obtain ⟨key, hkey⟩ := hfirst (mem_append_left _ hdone)
  exact ⟨key, head?_members_append hq hkey⟩

theorem consolidated_step (h : Consolidated o objects done c) (hnew : p ∉ done)
    (hp : objects p = some n) (hips : n.ips ≠ []) :
    ∃ c', consolidate o c p = some c' ∧ Consolidated o objects (done ++ [p]) c' := by
  have hlive : c.objects p = some n := by rw [h.kept p fun hdone => absurd hdone hnew, hp]
  have hlists := h.lookup n.key
  unfold consolidate
  rw [hlive, bind_some]
  cases hmembers : members objects done n.key with
  | nil =>
    have haddresses : addresses objects done n.key = [] := by
      rw [addresses, hmembers]
      rfl
    obtain ⟨first, rest, hfirst⟩ := exists_cons_of_ne_nil hips
    simp only [hlists, hmembers, hfirst]
    refine ⟨_, rfl, h.sorted.assign o.strictWeak _ _, ?_, ?_, h.sub⟩
    · have hnet : (members objects done n.key ++ [p]).head? = some p := by
        rw [hmembers]
        rfl
      have hnext := lookup_append hp p hnet c.lists h.lookup (o := o)
      rw [haddresses, hfirst] at hnext
      exact hnext
    · intro q hq
      by_cases heq : q = p
      · rw [heq, hp]
        exact hlive
      · exact h.kept_of_ne heq hq
  | cons first rest =>
    simp only [hlists, hmembers, Store.delete_eq hlive]
    refine ⟨_, rfl, h.sorted.assign o.strictWeak _ _, ?_, ?_, ?_⟩
    · have hnet : (members objects done n.key ++ [p]).head? = some first := by
        rw [hmembers]
        rfl
      exact lookup_append hp first hnet c.lists h.lookup
    · intro q hq
      by_cases heq : q = p
      · -- the network that is deleted is not the first one of its key
        obtain ⟨key, hkey⟩ := hq (by rw [heq]; simp)
        rw [heq] at hkey
        have hown := (mem_members.mp (mem_of_mem_head? hkey)).2.eq hp
        rw [← hown, members_append hp, hmembers] at hkey
        have hdone : p ∈ done := by
          rw [← some.inj hkey]
          exact (mem_members.mp (hmembers ▸ mem_cons_self)).1
        exact absurd hdone hnew
      · exact (Store.erase_of_ne _ heq).trans (h.kept_of_ne heq hq)
    · intro q m hm
      exact h.sub q m (Store.of_erase hm)

theorem consolidated_all {list : List Ptr} (hnodup : list.Nodup)
    (hlive : ∀ p ∈ list, ∃ n, objects p = some n ∧ n.ips ≠ []) :
    ∃ c, exec (consolidate o) { objects } list = some c ∧ Consolidated o objects list c := by
  apply exec_done
  · intro done p rest c hall h
    obtain ⟨n, hn, hips⟩ := hlive p (by rw [hall]; simp)
    have hnew : p ∉ done := by
      rw [hall] at hnodup
      exact fun hp => (nodup_append.mp hnodup).2.2 p hp p mem_cons_self rfl
    exact consolidated_step h hnew hn hips
  · exact ⟨List.Pairwise.nil, fun _ => rfl, fun _ _ => rfl, fun _ _ h => h⟩

end Consolidation

/-! ### The second loop -/

theorem InterfaceAddress.opEq_iff (a b : InterfaceAddress) : a.opEq b = true ↔ a = b := by
  cases a
  cases b
  simp [InterfaceAddress.opEq, IPAddress.opEq_iff, and_comm]

/-- What `SetIPs` has checked when it does not report a change. -/
def Unchanged (old new : List InterfaceAddress) : Prop :=
  new.length = old.length ∧ ∀ ip ∈ new, ip ∈ old

theorem setIPs_eq_false {n : Network} {ips : List InterfaceAddress} {changed : Bool}
    (h : (n.setIPs ips changed).2 = false) : changed = false ∧ Unchanged n.ips ips := by
  simp only [Network.setIPs, Bool.or_eq_false_iff, bne_eq_false_iff_eq, List.any_eq_false,
    Bool.not_eq_true'] at h
  refine ⟨h.1.1, h.1.2, ?_⟩
  intro ip hip
  by_contra hnot
  exact h.2 ip hip fun old hold heq => hnot ((InterfaceAddress.opEq_iff old ip).mp heq ▸ hold)

/-- The fields that the type and the preferences have nothing to do with. -/
structure SameIdentity (n n' : Network) : Prop where
  key : n'.key = n.key
  id : n'.id = n.id
  active : n'.active = n.active

theorem adopt_spec (n net : Network) (ips : List InterfaceAddress)
    (signalPreference changed : Bool) :
    SameIdentity n (Network.adopt { n with ips } net signalPreference changed).1 ∧
      (Network.adopt { n with ips } net signalPreference changed).1.ips = ips ∧
      ((Network.adopt { n with ips } net signalPreference changed).2 = false →
        changed = false ∧ n.active = true) := by
  have htype : ∀ newType : Prop, [Decidable newType] → ∀ n' : Network,
      n' = (if newType then Network.setType { n with ips } net.type else { n with ips }) →
      SameIdentity n n' ∧ n'.ips = ips := by
    rintro newType _ _ rfl
    unfold Network.setType
    split
    · split <;> exact ⟨⟨rfl, rfl, rfl⟩, rfl⟩
    · exact ⟨⟨rfl, rfl, rfl⟩, rfl⟩
  unfold Network.adopt
  have hsame := htype (net.type ≠ .unknown ∧ net.type ≠ n.type) _ rfl
  refine ⟨{ hsame.1 with }, hsame.2, ?_⟩
  intro h
  simp only [Bool.or_eq_false_iff, Bool.not_eq_false'] at h
  exact ⟨h.1.1.1, hsame.1.active.symm.trans h.1.2⟩

theorem reuseNetwork_spec (signalPreference : Bool) {existing net : Ptr} {e n : Network}
    (he : objects existing = some e) (hn : objects net = some n) (hkey : n.key = e.key)
    (ips : List InterfaceAddress) (changed : Bool) :
    ∃ objects' changed' e', reuseNetwork signalPreference objects existing net ips changed =
        some (objects', changed') ∧
      objects' existing = some e' ∧ SameIdentity e e' ∧ e'.ips = ips ∧
      Within Network.key (· = e.key) objects objects' ∧
      (changed' = false → changed = false ∧ e.active = true ∧ Unchanged e.ips ips) := by
  have hset : (e.setIPs ips changed).1 = { e with ips } := rfl
  obtain ⟨newNet, hnewNet, hnewKey⟩ : ∃ newNet,
      objects.put existing { e with ips } net = some newNet ∧ newNet.key = e.key := by
    by_cases heq : net = existing
    · rw [heq, Store.put_self]
      exact ⟨_, rfl, rfl⟩
    · rw [Store.put_of_ne _ heq]
      exact ⟨n, hn, hkey⟩
  have hadopt := adopt_spec e newNet ips signalPreference (e.setIPs ips changed).2
  generalize hr : Network.adopt { e with ips } newNet signalPreference
    (e.setIPs ips changed).2 = r at hadopt
  have hput : Within Network.key (· = e.key) objects (objects.put existing { e with ips }) :=
    Within.put he rfl rfl
  have hput' := hput.trans (Within.put (Store.put_self ..) hadopt.1.key rfl)
  have hchanged : r.2 = false → changed = false ∧ e.active = true ∧ Unchanged e.ips ips := by
    intro h
    have hfalse := hadopt.2.2 h
    have hips := setIPs_eq_false hfalse.1
    exact ⟨hips.1, hfalse.2, hips.2⟩
  unfold reuseNetwork
  simp only [he, bind_some, hset, hnewNet, hr]
  by_cases heq : existing = net
  · rw [if_neg (not_not.mpr heq)]
    exact ⟨_, _, r.1, rfl, Store.put_self .., hadopt.1, hadopt.2.1, hput', hchanged⟩
  · have hlive : ((objects.put existing { e with ips }).put existing r.1) net = some newNet := by
      rw [Store.put_of_ne _ (Ne.symm heq), hnewNet]
    rw [if_pos heq, Store.delete_eq hlive]
    refine ⟨_, _, r.1, rfl, ?_, hadopt.1, hadopt.2.1, hput'.trans (Within.erase hlive hnewKey),
      hchanged⟩
    rw [Store.erase_of_ne _ heq, Store.put_self]

section Merge

/-- What the second loop starts from. -/
structure Entries (o : Orders) (objects : Store Network) (before : List (NetworkKey × Ptr))
    (entries : List (NetworkKey × AddressList)) : Prop where
  sorted : Sorted o.Lt entries
  nets : ∀ e ∈ entries, HasKey objects e.1 e.2.net
  before_sorted : Sorted o.Lt before
  registered : ∀ key p, before.lookup key = some p → HasKey objects key p

/-- The object that stands for an entry afterwards. -/
def objectOf (before : List (NetworkKey × Ptr)) (e : NetworkKey × AddressList) : Ptr :=
  (before.lookup e.1).getD e.2.net

theorem objectOf_eq {before : List (NetworkKey × Ptr)} {e : NetworkKey × AddressList} {p : Ptr}
    (h : before.lookup e.1 = some p) : objectOf before e = p := by
  rw [objectOf, h]
  rfl

/-- The entries that are done have their object with the new addresses, and everything
else is as it was. -/
structure Merged (o : Orders) (objects : Store Network) (before : List (NetworkKey × Ptr))
    (done : List (NetworkKey × AddressList)) (m : Merge) : Prop where
  sorted : Sorted o.Lt m.networksMap
  map : ∀ key, m.networksMap.lookup key =
    (before.lookup key).or ((done.lookup key).map AddressList.net)
  list : m.mergedList = done.map (objectOf before)
  within : Within Network.key (fun key => ∃ e ∈ done, e.1 = key) objects m.objects
  results : ∀ e ∈ done, ∃ n', m.objects (objectOf before e) = some n' ∧ n'.key = e.1 ∧
    n'.ips = e.2.ips ∧
    ∀ old n, before.lookup e.1 = some old → objects old = some n → SameIdentity n n'
  changed : m.changed = false → ∀ e ∈ done, ∃ old n, before.lookup e.1 = some old ∧
    objects old = some n ∧ n.active = true ∧ Unchanged n.ips e.2.ips

variable {o : Orders} {objects : Store Network} {before : List (NetworkKey × Ptr)}
  {done : List (NetworkKey × AddressList)} {m m' : Merge} {e : NetworkKey × AddressList}

theorem Merged.untouched (h : Merged o objects before done m) {key : NetworkKey}
    (hnew : ∀ d ∈ done, d.1 ≠ key) {p : Ptr} {n : Network} (hp : objects p = some n)
    (hkey : n.key = key) : m.objects p = some n := by
  apply h.within.kept hp
  intro hdone
  obtain ⟨d, hd, heq⟩ := hdone
  exact hnew d hd (heq.trans hkey)

theorem Merged.next (h : Merged o objects before done m) (hnew : ∀ d ∈ done, d.1 ≠ e.1)
    (hsorted : Sorted o.Lt m'.networksMap)
    (hmap : ∀ key, m'.networksMap.lookup key = if key = e.1 then some (objectOf before e) else
      m.networksMap.lookup key) (hlist : m'.mergedList = m.mergedList ++ [objectOf before e])
    (hwithin : Within Network.key (· = e.1) m.objects m'.objects)
    (hresult : ∃ n', m'.objects (objectOf before e) = some n' ∧ n'.key = e.1 ∧ n'.ips = e.2.ips ∧ ∀
      old n, before.lookup e.1 = some old → objects old = some n → SameIdentity n n')
    (hchanged : m'.changed = false → m.changed = false ∧ ∃ old n, before.lookup e.1 = some old ∧
      objects old = some n ∧ n.active = true ∧ Unchanged n.ips e.2.ips) :
    Merged o objects before (done ++ [e]) m' where
  sorted := hsorted
  map key := by
    rw [hmap, h.map, List.lookup_append, lookup_cons_eq, lookup_nil]
    by_cases hkey : key = e.1
    · rw [if_pos hkey, if_pos hkey, hkey, lookup_eq_none_of_ne hnew, objectOf]
      cases before.lookup e.1 with
      | none => rfl
      | some old => rfl
    · rw [if_neg hkey, if_neg hkey, or_none]
  list := by rw [hlist, h.list, map_append, map_singleton]
  within := by
    refine (h.within.mono ?_).trans (hwithin.mono ?_)
    · intro key hkey
      obtain ⟨d, hd, heq⟩ := hkey
      exact ⟨d, mem_append_left _ hd, heq⟩
    · intro key hkey
      exact ⟨e, by simp, hkey.symm⟩
  results d hd := by
    cases mem_append.mp hd with
    | inl hd =>
      obtain ⟨n', hn', hkey, hips, hsame⟩ := h.results d hd
      exact ⟨n', hwithin.kept hn' (fun heq => hnew d hd (hkey.symm.trans heq)), hkey, hips, hsame⟩
    | inr hd => exact mem_singleton.mp hd ▸ hresult
  changed hfalse d hd := by
    have hboth := hchanged hfalse
    exact forall_mem_append.mpr ⟨h.changed hboth.1, forall_mem_singleton.mpr hboth.2⟩ d hd

theorem merged_step (signalPreference : Bool) {entries : List (NetworkKey × AddressList)}
    (hentries : Entries o objects before entries) (he : e ∈ entries)
    (h : Merged o objects before done m) (hnew : ∀ d ∈ done, d.1 ≠ e.1) :
    ∃ m', mergeEntry o signalPreference m e = some m' ∧
      Merged o objects before (done ++ [e]) m' := by
  have hlookup : m.networksMap.lookup e.1 = before.lookup e.1 := by
    rw [h.map, lookup_eq_none_of_ne hnew, map_none, or_none]
  obtain ⟨net, hnet, hnetKey⟩ := hentries.nets e he
  have hlive := h.untouched hnew hnet hnetKey
  unfold mergeEntry
  cases hbefore : before.lookup e.1 with
  | none =>
    have hobject : objectOf before e = e.2.net := by
      rw [objectOf, hbefore]
      rfl
    rw [hlookup, hbefore]
    simp only [Store.modify_eq hlive]
    refine ⟨_, rfl, h.next hnew ?_ ?_ ?_ ?_ ?_ ?_⟩
    · exact h.sorted.assign o.strictWeak _ _
    · intro key
      rw [hobject, lookup_assign o.total]
    · rw [hobject]
    · exact Within.put hlive rfl hnetKey
    · rw [hobject]
      refine ⟨_, Store.put_self .., hnetKey, rfl, ?_⟩
      intro old n hold
      rw [hbefore] at hold
      contradiction
    · exact fun hfalse => absurd hfalse (by simp)
  | some existing =>
    have hobject := objectOf_eq hbefore
    obtain ⟨old, hold, holdKey⟩ := hentries.registered e.1 existing hbefore
    have holdLive := h.untouched hnew hold holdKey
    obtain ⟨objects', changed', n', hreuse, hn', hsame, hips, hwithin, hchanged⟩ :=
      reuseNetwork_spec signalPreference holdLive hlive (hnetKey.trans holdKey.symm) e.2.ips
        m.changed
    rw [hlookup, hbefore]
    simp only [hreuse]
    refine ⟨_, rfl, h.next hnew h.sorted ?_ ?_ ?_ ?_ ?_⟩
    · intro key
      by_cases hkey : key = e.1
      · rw [if_pos hkey, hkey, hlookup, hbefore, hobject]
      · rw [if_neg hkey]
    · rw [hobject]
    · rw [holdKey] at hwithin
      exact hwithin
    · rw [hobject]
      refine ⟨n', hn', hsame.key.trans holdKey, hips, ?_⟩
      intro old' n hold' hn
      rw [hbefore] at hold'
      rw [← some.inj hold', hold] at hn
      exact some.inj hn ▸ hsame
    · intro hfalse
      have hall := hchanged hfalse
      exact ⟨hall.1, existing, old, hbefore, hold, hall.2⟩

theorem merged_all (signalPreference : Bool) (nextId : UInt16)
    {entries : List (NetworkKey × AddressList)} (hentries : Entries o objects before entries) :
    ∃ m, exec (mergeEntry o signalPreference)
        { objects, networksMap := before, nextAvailableNetworkId := nextId } entries = some m ∧
      Merged o objects before entries m := by
  apply exec_done
  · intro done e rest m hall h
    have he : e ∈ entries := by
      rw [hall]
      simp
    have hnew : ∀ d ∈ done, d.1 ≠ e.1 := by
      have hsorted := hentries.sorted
      rw [hall] at hsorted
      intro d hd
      exact o.total.ne_of_lt ((pairwise_append.mp hsorted).2.2 d hd e mem_cons_self)
    exact merged_step signalPreference hentries he h hnew
  · refine ⟨hentries.before_sorted, ?_, rfl, Within.refl _ _ _, by simp, by simp⟩
    intro key
    simp

end Merge

/-! ### The active states and the preferences -/

def Network.setActive (n : Network) (active : Bool) : Network := { n with active }

/-- The active states of the networks of a part of the map have been reset. -/
def ActiveReset (objects : Store Network) (networks : List Ptr)
    (done : List (NetworkKey × Ptr)) (objects' : Store Network) : Prop :=
  ∀ q, objects' q =
    if q ∈ done.map Prod.snd then (objects q).map (·.setActive (networks.contains q))
    else objects q

theorem activeReset_all (networks : List Ptr) {map : List (NetworkKey × Ptr)}
    (hlive : ∀ kv ∈ map, ∃ n, objects kv.2 = some n) :
    ∃ objects', exec (resetActive networks) objects map = some objects' ∧
      ActiveReset objects networks map objects' := by
  apply exec_done
  · intro done kv rest objects' hall h
    obtain ⟨n, hn⟩ := hlive kv (by rw [hall]; simp)
    obtain ⟨n', hn', hreset⟩ : ∃ n', objects' kv.2 = some n' ∧
        n'.setActive (networks.contains kv.2) = n.setActive (networks.contains kv.2) := by
      rw [h kv.2, hn]
      split
      · exact ⟨_, rfl, rfl⟩
      · exact ⟨n, rfl, rfl⟩
    refine ⟨_, Store.modify_eq hn' _, ?_⟩
    intro q
    by_cases heq : q = kv.2
    · rw [heq, Store.put_self, if_pos (by simp), hn]
      exact congrArg some hreset
    · have hmem : q ∈ done.map Prod.snd ↔ q ∈ (done ++ [kv]).map Prod.snd := by
        rw [map_append, mem_append, map_singleton, mem_singleton, or_iff_left heq]
      rw [Store.put_of_ne _ heq, h q]
      exact if_congr hmem rfl rfl
  · intro q
    rfl

theorem setPreferences_all {networks : List Ptr} (pref : Nat)
    (hlive : ∀ p ∈ networks, (objects p).isSome) :
    ∃ objects', setPreferences pref objects networks = some objects' ∧
      ∀ q, ∃ preference, objects' q = (objects q).map fun n => { n with preference } := by
  have hsame (objects : Store Network) (q : Ptr) :
      ∃ preference, objects q = (objects q).map fun n : Network => { n with preference } := by
    cases hq : objects q with
    | none => exact ⟨0, rfl⟩
    | some n => exact ⟨n.preference, rfl⟩
  induction networks generalizing pref objects with
  | nil => exact ⟨objects, rfl, hsame objects⟩
  | cons p networks ih =>
    obtain ⟨n, hn⟩ := isSome_iff_exists.mp (hlive p mem_cons_self)
    have hput : ∀ q, ∃ preference, objects.put p { n with preference := pref } q =
        (objects q).map fun n => { n with preference } := by
      intro q
      by_cases heq : q = p
      · rw [heq, Store.put_self, hn]
        exact ⟨pref, rfl⟩
      · rw [Store.put_of_ne _ heq]
        exact hsame objects q
    rw [setPreferences, Store.modify_eq hn]
    split
    case isTrue =>
      have hrest : ∀ q ∈ networks, (objects.put p { n with preference := pref } q).isSome := by
        intro q hq
        obtain ⟨preference, heq⟩ := hput q
        rw [heq, isSome_map]
        exact hlive q (mem_cons_of_mem p hq)
      obtain ⟨objects', hset, hobjects'⟩ := ih (pref - 1) hrest
      refine ⟨objects', hset, ?_⟩
      intro q
      obtain ⟨first, hfirst⟩ := hput q
      obtain ⟨preference, heq⟩ := hobjects' q
      refine ⟨preference, ?_⟩
      rw [heq, hfirst, Option.map_map]
      rfl
    case isFalse => exact ⟨_, rfl, hput⟩

/-! ### Calls of the manager -/

/-- What holds between calls. -/
structure Sound (o : Orders) (s : NetworkManagerBase) : Prop where
  sorted : Sorted o.Lt s.networksMap
  registered : ∀ key p, s.networksMap.lookup key = some p → HasKey s.objects key p
  active : ∀ key p n, s.networksMap.lookup key = some p → s.objects p = some n →
    (n.active = true ↔ p ∈ s.networks)
  owned : ∀ p ∈ s.networks, ∃ key, s.networksMap.lookup key = some p
  nodup : s.networks.Nodup

/-- The list of a call: objects that live and have an address, each once, and no address
twice under one key.  An object that the manager has already is the only one of its key in
the list, since the manager deletes all but one. -/
structure Admissible (s : NetworkManagerBase) (list : List Ptr) : Prop where
  nodup : list.Nodup
  live : ∀ p ∈ list, ∃ n, s.objects p = some n ∧ n.ips ≠ []
  alone : ∀ p ∈ list, ∀ key, s.networksMap.lookup key = some p →
    ∀ q ∈ list, HasKey s.objects key q → q = p
  distinct : ∀ key, (addresses s.objects list key).Nodup

/-- What a call is supposed to do. -/
structure Reports (s s' : NetworkManagerBase) (list : List Ptr) (changed : Bool) : Prop where
  active : ∀ p, p ∈ s'.networks ↔
    ∃ key n, s'.networksMap.lookup key = some p ∧ s'.objects p = some n ∧ n.active = true
  keys : ∀ key, (∃ p ∈ s'.networks, HasKey s'.objects key p) ↔
    ∃ q ∈ list, HasKey s.objects key q
  one : ∀ key p q, p ∈ s'.networks → q ∈ s'.networks → HasKey s'.objects key p →
    HasKey s'.objects key q → p = q
  addresses : ∀ p ∈ s'.networks, ∀ n, s'.objects p = some n →
    ∀ a, a ∈ n.ips ↔ a ∈ addresses s.objects list n.key
  keeps : ∀ key p n, s.networksMap.lookup key = some p → s.objects p = some n →
    s'.networksMap.lookup key = some p ∧ ∃ n', s'.objects p = some n' ∧ n'.id = n.id
  unchanged : changed = false → s'.networks = s.networks ∧
    ∀ p ∈ s.networks, ∃ n n', s.objects p = some n ∧ s'.objects p = some n' ∧
      ∀ a, a ∈ n'.ips ↔ a ∈ n.ips

section Call

variable {o : Orders} {s : NetworkManagerBase} {list : List Ptr}

theorem mem_lists_iff {objects : Store Network} {done : List Ptr} {c : Consolidation}
    (hc : Consolidated o objects done c) (e : NetworkKey × AddressList) :
    e ∈ c.lists ↔ (members objects done e.1).head? = some e.2.net ∧
      e.2.ips = addresses objects done e.1 := by
  constructor
  · intro he
    have hlookup := hc.sorted.lookup_of_mem o.total he
    rw [hc.lookup, map_eq_some_iff] at hlookup
    obtain ⟨p, hp, heq⟩ := hlookup
    rw [← heq]
    exact ⟨hp, rfl⟩
  · intro he
    apply mem_of_lookup
    rw [hc.lookup, he.1, ← he.2]
    rfl

theorem entries_of_consolidated (hs : Sound o s) {done : List Ptr} {c : Consolidation}
    (hdone : done.Perm list) (hlist : Admissible s list)
    (hc : Consolidated o s.objects done c) : Entries o c.objects s.networksMap c.lists where
  sorted := hc.sorted
  nets e he := by
    have hhead := ((mem_lists_iff hc e).mp he).1
    obtain ⟨-, n, hn, hkey⟩ := mem_members.mp (mem_of_mem_head? hhead)
    refine ⟨n, ?_, hkey⟩
    rw [hc.kept _ fun _ => ⟨e.1, hhead⟩, hn]
  before_sorted := hs.sorted
  registered key p hp := by
    obtain ⟨n, hn, hkey⟩ := hs.registered key p hp
    refine ⟨n, ?_, hkey⟩
    rw [hc.kept, hn]
    intro hmem
    refine ⟨key, ?_⟩
    -- all networks of the key are this one
    have hfirst : p ∈ members s.objects done key := mem_members.mpr ⟨hmem, n, hn, hkey⟩
    obtain ⟨q, rest, hmembers⟩ := exists_cons_of_ne_nil (ne_nil_of_mem hfirst)
    have hq := mem_members.mp (hmembers ▸ mem_cons_self)
    have heq := hlist.alone p (hdone.mem_iff.mp hmem) key hp q (hdone.mem_iff.mp hq.1) hq.2
    rw [hmembers, heq]
    rfl

/-- The state after both loops, before the lists are replaced. -/
structure Loops (o : Orders) (s : NetworkManagerBase) (list : List Ptr)
    (entries : List (NetworkKey × AddressList)) (m : Merge) : Prop where
  entries_sorted : Sorted o.Lt entries
  entries_iff : ∀ key, (∃ e ∈ entries, e.1 = key) ↔ ∃ q ∈ list, HasKey s.objects key q
  ips : ∀ e ∈ entries, e.2.ips.Perm (addresses s.objects list e.1)
  old : ∀ key p n, s.networksMap.lookup key = some p → s.objects p = some n →
    ∃ n', m.objects p = some n' ∧ SameIdentity n n'
  sorted : Sorted o.Lt m.networksMap
  map : ∀ key, m.networksMap.lookup key =
    (s.networksMap.lookup key).or ((entries.lookup key).map AddressList.net)
  list : m.mergedList = entries.map (objectOf s.networksMap)
  results : ∀ e ∈ entries, m.networksMap.lookup e.1 = some (objectOf s.networksMap e) ∧
    ∃ n', m.objects (objectOf s.networksMap e) = some n' ∧ n'.key = e.1 ∧ n'.ips = e.2.ips
  changed : m.changed = false → ∀ e ∈ entries, ∃ n,
    s.networksMap.lookup e.1 = some (objectOf s.networksMap e) ∧
      s.objects (objectOf s.networksMap e) = some n ∧ n.active = true ∧ Unchanged n.ips e.2.ips

theorem loops_spec (hs : Sound o s) (hlist : Admissible s list) :
    ∃ c m, exec (consolidate o) { objects := s.objects } (o.compareNetworks s.objects list) =
        some c ∧
      exec (mergeEntry o s.signalNetworkPreferenceChange)
        { objects := c.objects, networksMap := s.networksMap,
          nextAvailableNetworkId := s.nextAvailableNetworkId } c.lists = some m ∧
      Loops o s list c.lists m := by
  have hperm := o.compare_perm s.objects list
  obtain ⟨c, hexec, hc⟩ := consolidated_all (o := o) (hperm.nodup_iff.mpr hlist.nodup)
    fun p hp => hlist.live p (hperm.mem_iff.mp hp)
  have hentries := entries_of_consolidated hs hperm hlist hc
  obtain ⟨m, hexec', hm⟩ := merged_all s.signalNetworkPreferenceChange s.nextAvailableNetworkId
    hentries
  -- objects of the manager go through the first loop unchanged
  have hregistered : ∀ key p n, s.networksMap.lookup key = some p → s.objects p = some n →
      c.objects p = some n := by
    intro key p n hp hn
    obtain ⟨n', hn', -⟩ := hentries.registered key p hp
    have hsub := hc.sub p n' hn'
    rw [hn] at hsub
    rw [hn', some.inj hsub]
  refine ⟨c, m, hexec, hexec', hc.sorted, ?_, ?_, ?_, hm.sorted, hm.map, hm.list, ?_, ?_⟩
  · intro key
    constructor
    · intro h
      obtain ⟨e, he, rfl⟩ := h
      have hmem := mem_members.mp (mem_of_mem_head? ((mem_lists_iff hc e).mp he).1)
      exact ⟨_, hperm.mem_iff.mp hmem.1, hmem.2⟩
    · intro h
      obtain ⟨q, hq, hkey⟩ := h
      have hmem := mem_members.mpr ⟨hperm.mem_iff.mpr hq, hkey⟩
      obtain ⟨p, rest, hmembers⟩ := exists_cons_of_ne_nil (ne_nil_of_mem hmem)
      refine ⟨(key, ⟨p, addresses s.objects (o.compareNetworks s.objects list) key⟩),
        (mem_lists_iff hc _).mpr ⟨?_, rfl⟩, rfl⟩
      rw [hmembers]
      rfl
  · intro e he
    rw [((mem_lists_iff hc e).mp he).2]
    exact addresses_perm hperm
  · intro key p n hp hn
    have hcn := hregistered key p n hp hn
    have hkey := (hs.registered key p hp).eq hn
    by_cases hdone : ∀ e ∈ c.lists, e.1 ≠ key
    · exact ⟨n, hm.untouched hdone hcn hkey, rfl, rfl, rfl⟩
    · obtain ⟨e, he, hekey⟩ : ∃ e ∈ c.lists, e.1 = key := by simpa using hdone
      obtain ⟨n', hn', -, -, hsame⟩ := hm.results e he
      rw [← hekey] at hp
      rw [objectOf_eq hp] at hn'
      exact ⟨n', hn', hsame p n hp hcn⟩
  · intro e he
    obtain ⟨n', hn', hkey, hips, -⟩ := hm.results e he
    refine ⟨?_, n', hn', hkey, hips⟩
    rw [hm.map, hc.sorted.lookup_of_mem o.total he, objectOf]
    cases s.networksMap.lookup e.1 with
    | none => rfl
    | some old => rfl
  · intro hfalse e he
    obtain ⟨old, n, hold, hn, hactive, hunchanged⟩ := hm.changed hfalse e he
    rw [objectOf_eq hold]
    exact ⟨n, hold, hc.sub old n hn, hactive, hunchanged⟩

variable {entries : List (NetworkKey × AddressList)} {m : Merge}

variable {p : Ptr}

theorem Loops.registered (h : Loops o s list entries m) (hs : Sound o s) {key : NetworkKey}
    (hp : m.networksMap.lookup key = some p) : HasKey m.objects key p := by
  rw [h.map] at hp
  cases hold : s.networksMap.lookup key with
  | some old =>
    rw [hold, some_or] at hp
    rw [hp] at hold
    obtain ⟨n, hn, hkey⟩ := hs.registered key p hold
    obtain ⟨n', hn', hsame⟩ := h.old key p n hold hn
    exact ⟨n', hn', hsame.key.trans hkey⟩
  | none =>
    rw [hold, none_or, map_eq_some_iff] at hp
    obtain ⟨l, hl, hnet⟩ := hp
    obtain ⟨-, n', hn', hkey, -⟩ := h.results (key, l) (mem_of_lookup hl)
    have hobject : objectOf s.networksMap (key, l) = p := by
      rw [objectOf, hold]
      exact hnet
    rw [hobject] at hn'
    exact ⟨n', hn', hkey⟩

theorem Loops.mem_mergedList (h : Loops o s list entries m) :
    p ∈ m.mergedList ↔ ∃ e ∈ entries, objectOf s.networksMap e = p := by
  rw [h.list, List.mem_map]

theorem Loops.nodup (h : Loops o s list entries m) : m.mergedList.Nodup := by
  rw [h.list, List.Nodup, pairwise_map]
  apply List.Pairwise.imp_of_mem _ h.entries_sorted
  intro d e hd he hlt heq
  obtain ⟨-, n, hn, hkey, -⟩ := h.results d hd
  obtain ⟨-, n', hn', hkey', -⟩ := h.results e he
  rw [heq, hn'] at hn
  exact o.total.ne_of_lt hlt (by rw [← hkey, ← hkey', some.inj hn])

/-- A state after the call: the map and the addresses are those after the loops, and the
networks in use are the merged ones. -/
structure Settled (m : Merge) (s' : NetworkManagerBase) : Prop where
  map : s'.networksMap = m.networksMap
  networks : s'.networks.Perm m.mergedList
  objects : ∀ key p n, m.networksMap.lookup key = some p → m.objects p = some n →
    ∃ n', s'.objects p = some n' ∧ n'.key = n.key ∧ n'.ips = n.ips ∧ n'.id = n.id ∧
      (n'.active = true ↔ p ∈ m.mergedList)

variable {s' : NetworkManagerBase}

theorem Settled.sound (h : Settled m s') (hl : Loops o s list entries m) (hs : Sound o s) :
    Sound o s' where
  sorted := h.map ▸ hl.sorted
  registered key p hp := by
    rw [h.map] at hp
    obtain ⟨n, hn, hkey⟩ := hl.registered hs hp
    obtain ⟨n', hn', hkey', -⟩ := h.objects key p n hp hn
    exact ⟨n', hn', hkey'.trans hkey⟩
  active key p n' hp hn' := by
    rw [h.map] at hp
    obtain ⟨n, hn, -⟩ := hl.registered hs hp
    obtain ⟨n'', hn'', -, -, -, hactive⟩ := h.objects key p n hp hn
    rw [hn'] at hn''
    rw [some.inj hn'', hactive, h.networks.mem_iff]
  owned p hp := by
    obtain ⟨e, he, rfl⟩ := hl.mem_mergedList.mp (h.networks.mem_iff.mp hp)
    exact ⟨e.1, h.map ▸ (hl.results e he).1⟩
  nodup := h.networks.nodup_iff.mpr hl.nodup

theorem Settled.network (h : Settled m s') (hl : Loops o s list entries m) (hp : p ∈ s'.networks) :
    ∃ e ∈ entries, objectOf s.networksMap e = p ∧ s'.networksMap.lookup e.1 = some p ∧
      ∃ n', s'.objects p = some n' ∧ n'.key = e.1 ∧ n'.ips = e.2.ips ∧ n'.active = true := by
  have hmem := h.networks.mem_iff.mp hp
  obtain ⟨e, he, rfl⟩ := hl.mem_mergedList.mp hmem
  obtain ⟨hmap, n, hn, hkey, hips⟩ := hl.results e he
  obtain ⟨n', hn', hkey', hips', -, hactive⟩ := h.objects e.1 _ n hmap hn
  exact ⟨e, he, rfl, h.map ▸ hmap, n', hn', hkey'.trans hkey, hips'.trans hips, hactive.mpr hmem⟩

theorem Settled.reports (h : Settled m s') (hl : Loops o s list entries m) (hs : Sound o s)
    {changed : Bool}
    (hunchanged : changed = false → s'.networks = s.networks ∧ ∀ p ∈ s.networks, ∃ n n', s.objects
      p = some n ∧ s'.objects p = some n' ∧ ∀ a, a ∈ n'.ips ↔ a ∈ n.ips) :
    Reports s s' list changed where
  active p := by
    constructor
    · intro hp
      obtain ⟨e, -, -, hmap, n', hn', -, -, hactive⟩ := h.network hl hp
      exact ⟨e.1, n', hmap, hn', hactive⟩
    · intro hp
      obtain ⟨key, n', hmap, hn', hactive⟩ := hp
      exact ((h.sound hl hs).active key p n' hmap hn').mp hactive
  keys key := by
    rw [← hl.entries_iff key]
    constructor
    · intro hp
      obtain ⟨p, hp, hkey⟩ := hp
      obtain ⟨e, he, -, -, n', hn', hkey', -⟩ := h.network hl hp
      exact ⟨e, he, hkey'.symm.trans (hkey.eq hn')⟩
    · intro he
      obtain ⟨e, he, rfl⟩ := he
      have hp : objectOf s.networksMap e ∈ s'.networks :=
        h.networks.mem_iff.mpr (hl.mem_mergedList.mpr ⟨e, he, rfl⟩)
      obtain ⟨hmap, n, hn, hkey, -⟩ := hl.results e he
      obtain ⟨n', hn', hkey', -⟩ := h.objects e.1 _ n hmap hn
      exact ⟨_, hp, n', hn', hkey'.trans hkey⟩
  one key p q hp hq hkeyP hkeyQ := by
    obtain ⟨d, -, -, hmapP, n, hn, hkeyD, -⟩ := h.network hl hp
    obtain ⟨e, -, -, hmapQ, n', hn', hkeyE, -⟩ := h.network hl hq
    rw [← hkeyD, hkeyP.eq hn] at hmapP
    rw [← hkeyE, hkeyQ.eq hn', hmapP] at hmapQ
    exact some.inj hmapQ
  addresses p hp n hn a := by
    obtain ⟨e, he, -, -, n', hn', hkey, hips, -⟩ := h.network hl hp
    rw [hn] at hn'
    rw [some.inj hn', hips, hkey]
    exact (hl.ips e he).mem_iff
  keeps key p n hp hn := by
    have hmap : m.networksMap.lookup key = some p := by
      rw [hl.map, hp]
      rfl
    obtain ⟨n₁, hn₁, hsame⟩ := hl.old key p n hp hn
    obtain ⟨n', hn', -, -, hid, -⟩ := h.objects key p n₁ hmap hn₁
    exact ⟨h.map ▸ hmap, n', hn', hid.trans hsame.id⟩
  unchanged := hunchanged

theorem Unchanged.mem_iff {old new : List InterfaceAddress} (h : Unchanged old new)
    (hnodup : new.Nodup) (a : InterfaceAddress) : a ∈ new ↔ a ∈ old :=
  ((subperm_of_subset hnodup h.2).perm_of_length_le (Nat.le_of_eq h.1.symm)).mem_iff

variable (h : Loops o s list entries m)
include h

theorem Loops.networks_perm (hs : Sound o s) (hchanged : m.changed = false)
    (hlength : m.mergedList.length = s.networks.length) :
    s.networks.Perm m.mergedList := by
  have hsub : m.mergedList ⊆ s.networks := by
    intro p hp
    obtain ⟨e, he, rfl⟩ := h.mem_mergedList.mp hp
    obtain ⟨n, hmap, hn, hactive, -⟩ := h.changed hchanged e he
    exact (hs.active e.1 _ n hmap hn).mp hactive
  exact ((subperm_of_subset h.nodup hsub).perm_of_length_le (Nat.le_of_eq hlength.symm)).symm

theorem Loops.settled_of_unchanged (hs : Sound o s) (hchanged : m.changed = false)
    (hperm : s.networks.Perm m.mergedList) : Settled m { s with
      objects := m.objects
      networksMap := m.networksMap
      nextAvailableNetworkId := m.nextAvailableNetworkId } where
  map := rfl
  networks := hperm
  objects key p n hp hn := by
    refine ⟨n, hn, rfl, rfl, rfl, ?_⟩
    have hold : s.networksMap.lookup key = some p := by
      rw [h.map] at hp
      cases hfound : entries.lookup key with
      | none =>
        rw [hfound, map_none, or_none] at hp
        exact hp
      | some l =>
        obtain ⟨-, hbefore, -⟩ := h.changed hchanged (key, l) (mem_of_lookup hfound)
        rw [hbefore, some_or] at hp
        rw [hbefore, hp]
    obtain ⟨n₀, hn₀, -⟩ := hs.registered key p hold
    obtain ⟨n', hn', hsame⟩ := h.old key p n₀ hold hn₀
    rw [hn] at hn'
    rw [some.inj hn', hsame.active, hs.active key p n₀ hold hn₀, hperm.mem_iff]

theorem Loops.unchanged (hlist : Admissible s list) (hchanged : m.changed = false)
    (hp : p ∈ m.mergedList) :
    ∃ n n', s.objects p = some n ∧ m.objects p = some n' ∧ ∀ a, a ∈ n'.ips ↔ a ∈ n.ips := by
  obtain ⟨e, he, rfl⟩ := h.mem_mergedList.mp hp
  obtain ⟨n, -, hn, -, hsame⟩ := h.changed hchanged e he
  obtain ⟨-, n', hn', -, hips⟩ := h.results e he
  refine ⟨n, n', hn, hn', ?_⟩
  rw [hips]
  exact hsame.mem_iff ((h.ips e he).nodup_iff.mpr (hlist.distinct e.1))

theorem Loops.refresh (hs : Sound o s) :
    ∃ objects objects', exec (resetActive m.mergedList) m.objects m.networksMap = some objects ∧
      setPreferences kHighestNetworkPreference objects (o.sortNetworks objects m.mergedList) =
        some objects' ∧
      Settled m { s with
        objects := objects'
        networks := o.sortNetworks objects m.mergedList
        networksMap := m.networksMap
        nextAvailableNetworkId := m.nextAvailableNetworkId } := by
  have hlive : ∀ kv ∈ m.networksMap, ∃ n, m.objects kv.2 = some n := by
    intro kv hkv
    obtain ⟨n, hn, -⟩ := h.registered hs (h.sorted.lookup_of_mem o.total hkv)
    exact ⟨n, hn⟩
  obtain ⟨objects, hreset, hobjects⟩ := activeReset_all m.mergedList hlive
  have hactive : ∀ key p n, m.networksMap.lookup key = some p → m.objects p = some n →
      objects p = some (n.setActive (m.mergedList.contains p)) := by
    intro key p n hp hn
    rw [hobjects p, if_pos (mem_map.mpr ⟨(key, p), mem_of_lookup hp, rfl⟩), hn]
    rfl
  have hperm := o.sort_perm objects m.mergedList
  have hlive' : ∀ p ∈ o.sortNetworks objects m.mergedList, (objects p).isSome := by
    intro p hp
    obtain ⟨e, he, rfl⟩ := h.mem_mergedList.mp (hperm.mem_iff.mp hp)
    obtain ⟨hmap, n, hn, -⟩ := h.results e he
    exact isSome_of_eq_some (hactive e.1 _ n hmap hn)
  obtain ⟨objects', hset, hobjects'⟩ := setPreferences_all kHighestNetworkPreference hlive'
  refine ⟨objects, objects', hreset, hset, rfl, hperm, ?_⟩
  intro key p n hp hn
  obtain ⟨preference, hpref⟩ := hobjects' p
  rw [hactive key p n hp hn] at hpref
  refine ⟨{ n.setActive (m.mergedList.contains p) with preference }, ?_, rfl, rfl, rfl, ?_⟩
  · exact hpref
  · exact contains_iff_mem

omit h

theorem mergeNetworkList_spec (hs : Sound o s) (hlist : Admissible s list) :
    ∃ s' changed stats, mergeNetworkList o s list = some (s', changed, stats) ∧ Sound o s' ∧
      Reports s s' list changed := by
  obtain ⟨c, m, hexec, hexec', h⟩ := loops_spec hs hlist
  unfold mergeNetworkList
  simp only [hexec, hexec', bind_eq_bind, bind_some]
  by_cases hchanged : m.changed = true ∨ m.mergedList.length ≠ s.networks.length
  · obtain ⟨objects, objects', hreset, hset, hsettled⟩ := h.refresh hs
    simp only [if_pos hchanged, hreset, hset, bind_some]
    exact ⟨_, _, _, rfl, hsettled.sound h hs, hsettled.reports h hs nofun⟩
  · rw [if_neg hchanged]
    simp only [not_or, Bool.not_eq_true, not_not] at hchanged
    have hperm := h.networks_perm hs hchanged.1 hchanged.2
    have hsettled := h.settled_of_unchanged hs hchanged.1 hperm
    refine ⟨_, _, _, rfl, hsettled.sound h hs, hsettled.reports h hs ?_⟩
    intro _
    exact ⟨rfl, fun p hp => h.unchanged hlist hchanged.1 (hperm.mem_iff.mp hp)⟩

end Call

/-! ### Runs -/

inductive Event where
  | create (ptr : Ptr) (network : Network)
  | merge (list : List Ptr)
deriving Repr

/-- The caller creates an object where none lives, or calls the manager. -/
def step (o : Orders) (s : NetworkManagerBase) : Event → Option NetworkManagerBase
  | .create ptr network =>
    match s.objects ptr with
    | none => some { s with objects := s.objects.put ptr network }
    | some _ => none
  | .merge list => (mergeNetworkList o s list).map (·.1)

def Allowed (s : NetworkManagerBase) : Event → Prop
  | .create ptr _ => s.objects ptr = none
  | .merge list => Admissible s list

theorem sound_create {o : Orders} {s : NetworkManagerBase} (hs : Sound o s) {ptr : Ptr}
    (hptr : s.objects ptr = none) (network : Network) :
    Sound o { s with objects := s.objects.put ptr network } := by
  have hother {p : Ptr} {key : NetworkKey} (hp : s.networksMap.lookup key = some p) :
      s.objects.put ptr network p = s.objects p := by
    apply Store.put_of_ne
    intro heq
    obtain ⟨n, hn, -⟩ := hs.registered key p hp
    rw [heq, hptr] at hn
    exact absurd hn nofun
  refine ⟨hs.sorted, ?_, ?_, hs.owned, hs.nodup⟩
  · intro key p hp
    obtain ⟨n, hn, hkey⟩ := hs.registered key p hp
    exact ⟨n, (hother hp).trans hn, hkey⟩
  · intro key p n hp hn
    exact hs.active key p n hp ((hother hp).symm.trans hn)

theorem sound_step (o : Orders) (s : NetworkManagerBase) (event : Event) (hs : Sound o s)
    (hevent : Allowed s event) : ∃ s', step o s event = some s' ∧ Sound o s' := by
  cases event with
  | create ptr network =>
    have hptr : s.objects ptr = none := hevent
    refine ⟨_, ?_, sound_create hs hptr network⟩
    simp only [step, hptr]
  | merge list =>
    obtain ⟨s', changed, stats, hmerge, hs', -⟩ := mergeNetworkList_spec hs hevent
    refine ⟨s', ?_, hs'⟩
    rw [step, hmerge, map_some]

/-- Keys by name, prefix and length. -/
def keyBefore (a b : NetworkKey) : Bool :=
  decide (a.name < b.name) ||
    (a.name == b.name &&
      (a.networkPrefix.opLt b.networkPrefix ||
        (a.networkPrefix == b.networkPrefix && decide (a.prefixLength < b.prefixLength))))

theorem strictTotal_keyBefore : StrictTotal fun a b => keyBefore a b = true := by
  have hpair := (strictTotal_list strictTotal_uint8).pair (strictTotal_opLt.pair strictTotal_int)
  apply hpair.of_key (f := fun k : NetworkKey => (k.name, k.networkPrefix, k.prefixLength))
  · intro a b h
    cases a
    cases b
    simp only [Prod.mk.injEq] at h
    simp [h]
  · intro a b
    simp [keyBefore, Pair]

def plainOrders : Orders where
  keyLt := keyBefore
  total := strictTotal_keyBefore
  compareNetworks _ list := list
  compare_perm _ _ := List.Perm.refl _
  sortNetworks _ list := list
  sort_perm _ _ := List.Perm.refl _

/-- `eth0` with the addresses `10.0.0.h`. -/
def sampleNetwork (hosts : List UInt8) : Network where
  key := ⟨[101, 116, 104, 48], .inet #v[10, 0, 0, 0], 24⟩
  ips := hosts.map fun host => { ip := .inet #v[10, 0, 0, host] }

end WebrtcCore.Ports.NetworkList
