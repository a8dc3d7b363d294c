import WebrtcCore.Verified.Delimited
import WebrtcCore.Verified.OrderedMap

/-!
# Field trial strings

Port of `FieldTrialsStringIsValid`, `MergeFieldTrialsStrings` and `FindFullName`.  A string
is a list of bytes; a scanner at the position `next_item` is a function of what stands
from there on.

Three scanners read such a string: the check takes names and groups one by one and
remembers them, the merge splits at all separators, and the lookup stops at the first
name that fits.  A string passes the check exactly when it was written from clean pairs in
which no name has two groups (`isValid_iff`), and all three agree on those pairs.
-/

namespace WebrtcCore.Ports.FieldTrial

open Verified Delimited OrderedMap StrictOrder List

abbrev Str := List UInt8

def kPersistentStringSeparator : UInt8 := 47

/-- `std::map` from strings to strings. -/
abbrev StringMap := List (Str × Str)

def StringMap.set (m : StringMap) (key value : Str) : StringMap :=
  assign (fun a b => a < b) key value m

/-- The loop of `FieldTrialsStringIsValidInternal`; it makes at most one iteration for
each byte. -/
def isValidFrom : Nat → StringMap → Str → Bool
  | 0, _, trials => trials.isEmpty
  | fuel + 1, fieldTrials, trials =>
    if trials = [] then true
    else
      match nextPair kPersistentStringSeparator trials with
      | none => false
      | some ((name, groupName), rest) =>
        match fieldTrials.lookup name with
        | some found =>
          if found ≠ groupName then false
          else isValidFrom fuel (fieldTrials.set name groupName) rest
        | none => isValidFrom fuel (fieldTrials.set name groupName) rest

def fieldTrialsStringIsValid (trials : Str) : Bool := isValidFrom trials.length [] trials

/-- The loop over the tokens, two at a time; the last one is skipped. -/
def insertTokens : StringMap → List Str → StringMap
  | m, name :: group :: tokens => insertTokens (m.set name group) tokens
  | m, _ => m

/-- An invalid string is only an `RTC_DCHECK`. -/
def insertOrReplaceFieldTrialStringsInMap (m : StringMap) (trials : Str) : StringMap :=
  if fieldTrialsStringIsValid trials then
    insertTokens m (split kPersistentStringSeparator trials)
  else m

def mergeFieldTrialsStrings (first second : Str) : Str :=
  let m := insertOrReplaceFieldTrialStringsInMap [] first
  let m := insertOrReplaceFieldTrialStringsInMap m second
  m.foldl (fun merged it =>
    merged ++ (it.1 ++ [kPersistentStringSeparator] ++ it.2 ++ [kPersistentStringSeparator])) []

/-- The loop of `FindFullName`. -/
def findFrom (name : Str) : Nat → Str → Str
  | 0, _ => []
  | fuel + 1, trials =>
    if trials = [] then []
    else
      match nextPair kPersistentStringSeparator trials with
      | none => []
      | some ((fieldName, fieldValue), rest) =>
        if name = fieldName then fieldValue else findFrom name fuel rest

/-- `FindFullName`, for the string that `InitFieldTrialsFromString` has installed. -/
def findFullName (trialsInitString : Option Str) (name : Str) : Str :=
  match trialsInitString with
  | none => []
  | some trials => findFrom name trials.length trials

/-- The pairs of a string. -/
def Assigns (trials name group : Str) : Prop :=
  ∃ items, (∀ p ∈ items, Clean kPersistentStringSeparator p) ∧
    trials = writePairs kPersistentStringSeparator items ∧ (name, group) ∈ items

/-! ### What the check accepts -/

/-- No name has two groups. -/
def Unambiguous (items : List (Str × Str)) : Prop := ∀ p ∈ items, ∀ q ∈ items, p.1 = q.1 → p.2 = q.2

/-- No name has another group than the one that is remembered. -/
def Agrees (m : StringMap) (items : List (Str × Str)) : Prop :=
  ∀ p ∈ items, ∀ found, m.lookup p.1 = some found → found = p.2

/-- The pairs that a valid string was written from. -/
structure Spells (items : List (Str × Str)) (trials : Str) : Prop where
  clean : ∀ p ∈ items, Clean kPersistentStringSeparator p
  writes : trials = writePairs kPersistentStringSeparator items
  unambiguous : Unambiguous items

variable (m : StringMap)

theorem lookup_set (key value k : Str) :
    (m.set key value).lookup k = if k = key then some value else m.lookup k :=
  lookup_assign (strictTotal_list strictTotal_uint8) key value m k

variable {items : List (Str × Str)} {trials name : Str}

theorem agrees_set_iff {m : StringMap} {p : Str × Str} :
    Agrees m (p :: items) ∧ Unambiguous (p :: items) ↔
      (∀ found, m.lookup p.1 = some found → found = p.2) ∧
        Agrees (m.set p.1 p.2) items ∧ Unambiguous items := by
  constructor
  · intro h
    have hagrees := forall_mem_cons.mp h.1
    refine ⟨hagrees.1, ?_, ?_⟩
    · intro q hq found hfound
      rw [lookup_set] at hfound
      split at hfound
      case isTrue heq =>
        rw [← Option.some.inj hfound]
        exact h.2 p mem_cons_self q (mem_cons_of_mem p hq) heq.symm
      case isFalse => exact hagrees.2 q hq found hfound
    · intro q hq r hr
      exact h.2 q (mem_cons_of_mem p hq) r (mem_cons_of_mem p hr)
  · intro h
    have hsame : ∀ q ∈ items, q.1 = p.1 → q.2 = p.2 := by
      intro q hq heq
      refine (h.2.1 q hq p.2 ?_).symm
      rw [lookup_set, if_pos heq]
    constructor
    · intro q hq found hfound
      cases mem_cons.mp hq with
      | inl heq => exact heq ▸ h.1 found (heq ▸ hfound)
      | inr hq =>
        by_cases heq : q.1 = p.1
        · rw [hsame q hq heq]
          exact h.1 found (heq ▸ hfound)
        · refine h.2.1 q hq found ?_
          rw [lookup_set, if_neg heq]
          exact hfound
    · intro q hq r hr heq
      cases mem_cons.mp hq with
      | inl hqp =>
        cases mem_cons.mp hr with
        | inl hrp => rw [hqp, hrp]
        | inr hr => exact hqp ▸ (hsame r hr (heq.symm.trans (hqp ▸ rfl))).symm
      | inr hq =>
        cases mem_cons.mp hr with
        | inl hrp => exact hrp ▸ hsame q hq (heq.trans (hrp ▸ rfl))
        | inr hr => exact h.2.2 q hq r hr heq

theorem isValidFrom_writePairs {fuel : Nat} {m : StringMap}
    (hclean : ∀ p ∈ items, Clean kPersistentStringSeparator p)
    (hfuel : (writePairs kPersistentStringSeparator items).length ≤ fuel)
    (hitems : Agrees m items ∧ Unambiguous items) :
    isValidFrom fuel m (writePairs kPersistentStringSeparator items) = true := by
  induction items generalizing fuel m with
  | nil =>
    cases fuel with
    | zero => rfl
    | succ fuel => rfl
  | cons p items ih =>
    obtain ⟨fuel, rfl, hne, hnext, hfuel⟩ := nextPair_fuel hclean hfuel
    have hrest := agrees_set_iff.mp hitems
    have hloop : isValidFrom fuel (m.set p.1 p.2)
        (writePairs kPersistentStringSeparator items) = true :=
      ih (forall_mem_cons.mp hclean).2 hfuel hrest.2
    rw [isValidFrom, if_neg hne, hnext]
    cases hfound : m.lookup p.1 with
    | none => simp only [hfound, hloop]
    | some found =>
      have heq := hrest.1 found hfound
      simp only [hfound, heq, hloop, ne_eq, not_true_eq_false, if_false]

theorem exists_items_of_isValidFrom {fuel : Nat} {m : StringMap}
    (h : isValidFrom fuel m trials = true) :
    ∃ items, (∀ p ∈ items, Clean kPersistentStringSeparator p) ∧
      trials = writePairs kPersistentStringSeparator items ∧
      Agrees m items ∧ Unambiguous items := by
  have hnil : ∀ m, ∃ items, (∀ p ∈ items, Clean kPersistentStringSeparator p) ∧
      [] = writePairs kPersistentStringSeparator items ∧ Agrees m items ∧ Unambiguous items :=
    fun m => ⟨[], by simp, rfl, by simp [Agrees], by simp [Unambiguous]⟩
  induction fuel generalizing m trials with
  | zero =>
    rw [isValidFrom, List.isEmpty_iff] at h
    exact h ▸ hnil m
  | succ fuel ih =>
    rw [isValidFrom] at h
    split at h
    case isTrue hempty => exact hempty ▸ hnil m
    case isFalse =>
      cases hnext : nextPair kPersistentStringSeparator trials with
      | none => simp [hnext] at h
      | some r =>
        obtain ⟨p, rest⟩ := r
        have hp := nextPair_eq_some_iff.mp hnext
        have hgo : (∀ found, m.lookup p.1 = some found → found = p.2) ∧
            isValidFrom fuel (m.set p.1 p.2) rest = true := by
          simp only [hnext] at h
          cases hfound : m.lookup p.1 with
          | none =>
            simp only [hfound] at h
            exact ⟨by simp, h⟩
          | some found =>
            simp only [hfound] at h
            split at h
            case isTrue => simp at h
            case isFalse heq =>
              refine ⟨?_, h⟩
              intro found' hfound'
              rw [← Option.some.inj hfound']
              exact Decidable.not_not.mp heq
        obtain ⟨items, hclean, hwrite, hitems⟩ := ih hgo.2
        refine ⟨p :: items, forall_mem_cons.mpr ⟨hp.1, hclean⟩, ?_,
          agrees_set_iff.mpr ⟨hgo.1, hitems⟩⟩
        rw [writePairs_cons, ← hwrite]
        exact hp.2

theorem isValid_iff (trials : Str) :
    fieldTrialsStringIsValid trials = true ↔ ∃ items, Spells items trials := by
  constructor
  · intro h
    obtain ⟨items, hclean, hwrite, -, hunambiguous⟩ := exists_items_of_isValidFrom h
    exact ⟨items, hclean, hwrite, hunambiguous⟩
  · intro h
    obtain ⟨items, hclean, rfl, hunambiguous⟩ := h
    exact isValidFrom_writePairs hclean (Nat.le_refl _) ⟨by simp [Agrees], hunambiguous⟩

theorem Spells.assigns_iff (h : Spells items trials) (name group : Str) :
    Assigns trials name group ↔ (name, group) ∈ items := by
  constructor
  · intro hassigns
    obtain ⟨items', hclean, hwrite, hmem⟩ := hassigns
    rw [writePairs_injective h.clean hclean (h.writes.symm.trans hwrite)]
    exact hmem
  · intro hmem
    exact ⟨items, h.clean, h.writes, hmem⟩

theorem Unambiguous.lookup_of_mem (h : Unambiguous items) {group : Str}
    (hmem : (name, group) ∈ items) : items.lookup name = some group := by
  cases hfound : items.lookup name with
  | none =>
    rw [lookup_eq_none_iff] at hfound
    have hne := hfound _ hmem
    simp at hne
  | some found => exact congrArg some (h _ (mem_of_lookup hfound) _ hmem rfl)

theorem Spells.lookup_of_assigns {group : Str} (h : Spells items trials)
    (hassigns : Assigns trials name group) :
    items.lookup name = some group :=
  h.unambiguous.lookup_of_mem ((h.assigns_iff name group).mp hassigns)

theorem Spells.lookup_eq_none (h : Spells items trials)
    (hnone : ∀ group, ¬ Assigns trials name group) :
    items.lookup name = none := by
  cases hfound : items.lookup name with
  | none => rfl
  | some group =>
    exact absurd ((h.assigns_iff name group).mpr (mem_of_lookup hfound)) (hnone group)

/-! ### What the lookup finds -/

theorem findFrom_writePairs {fuel : Nat} (name : Str)
    (hclean : ∀ p ∈ items, Clean kPersistentStringSeparator p)
    (hfuel : (writePairs kPersistentStringSeparator items).length ≤ fuel) :
    findFrom name fuel (writePairs kPersistentStringSeparator items) =
      (items.lookup name).getD [] := by
  induction items generalizing fuel with
  | nil =>
    cases fuel with
    | zero => rfl
    | succ fuel => rfl
  | cons p items ih =>
    obtain ⟨fuel, rfl, hne, hnext, hfuel⟩ := nextPair_fuel hclean hfuel
    rw [findFrom, if_neg hne, hnext, lookup_cons_eq]
    dsimp only
    split
    · rfl
    · exact ih (forall_mem_cons.mp hclean).2 hfuel

theorem Spells.findFullName (h : Spells items trials) (name : Str) :
    findFullName (some trials) name = (items.lookup name).getD [] := by
  rw [h.writes]
  exact findFrom_writePairs name h.clean (Nat.le_refl _)

/-! ### What the merge writes -/

theorem insertTokens_pairs (items : List (Str × Str)) :
    insertTokens m ((items.flatMap fun p => [p.1, p.2]) ++ [[]]) =
      items.foldl (fun m p => m.set p.1 p.2) m := by
  induction items generalizing m with
  | nil => rfl
  | cons p items ih => exact ih (m.set p.1 p.2)

theorem Spells.insertOrReplace (h : Spells items trials) (m : StringMap) :
    insertOrReplaceFieldTrialStringsInMap m trials = items.foldl (fun m p => m.set p.1 p.2) m := by
  rw [insertOrReplaceFieldTrialStringsInMap, if_pos ((isValid_iff trials).mpr ⟨items, h⟩),
    h.writes, split_writePairs h.clean, insertTokens_pairs]

theorem lookup_foldl_set (h : Unambiguous items) (m : StringMap) (k : Str) :
    (items.foldl (fun m p => m.set p.1 p.2) m).lookup k = (items.lookup k).or (m.lookup k) := by
  induction items generalizing m with
  | nil => rfl
  | cons p items ih =>
    have hrest : Unambiguous items := fun q hq r hr =>
      h q (mem_cons_of_mem p hq) r (mem_cons_of_mem p hr)
    rw [foldl_cons, ih hrest, lookup_set, lookup_cons_eq]
    by_cases hk : k = p.1
    · rw [if_pos hk, if_pos hk]
      cases hfound : items.lookup k with
      | none => rfl
      | some found =>
        have heq := h (k, found) (mem_cons_of_mem p (mem_of_lookup hfound)) p mem_cons_self hk
        rw [← heq]
        rfl
    · rw [if_neg hk, if_neg hk]

/-- A map with clean pairs. -/
structure CleanMap (m : StringMap) : Prop where
  sorted : Sorted (fun a b => a < b) m
  clean : ∀ p ∈ m, Clean kPersistentStringSeparator p

theorem CleanMap.set {m : StringMap} (h : CleanMap m) {p : Str × Str}
    (hp : Clean kPersistentStringSeparator p) : CleanMap (m.set p.1 p.2) where
  sorted := h.sorted.assign
    ((strictTotal_list strictTotal_uint8).strictWeak fun _ _ => Iff.rfl) p.1 p.2
  clean q hq := by
    cases mem_assign hq with
    | inl hnew => exact hnew ▸ hp
    | inr hold => exact h.clean q hold

theorem CleanMap.foldl_set {m : StringMap} (h : CleanMap m)
    (hitems : ∀ p ∈ items, Clean kPersistentStringSeparator p) :
    CleanMap (items.foldl (fun m p => m.set p.1 p.2) m) :=
  foldlRecOn items _ h fun _ hm p hp => hm.set (hitems p hp)

theorem CleanMap.unambiguous {m : StringMap} (h : CleanMap m) : Unambiguous m := by
  intro p hp q hq heq
  have hlookup (r : Str × Str) (hr : r ∈ m) : m.lookup r.1 = some r.2 :=
    h.sorted.lookup_of_mem (strictTotal_list strictTotal_uint8) hr
  have hsome : some p.2 = some q.2 := by rw [← hlookup p hp, ← hlookup q hq, heq]
  exact Option.some.inj hsome

theorem foldl_write (merged : Str) :
    m.foldl (fun merged it =>
        merged ++ (it.1 ++ [kPersistentStringSeparator] ++ it.2 ++ [kPersistentStringSeparator]))
      merged = merged ++ writePairs kPersistentStringSeparator m := by
  induction m generalizing merged with
  | nil => simp
  | cons p m ih =>
    rw [foldl_cons, ih, writePairs_cons]
    simp

theorem merge_spells {a b : Str} {itemsA itemsB : List (Str × Str)} (ha : Spells itemsA a)
    (hb : Spells itemsB b) :
    ∃ m, Spells m (mergeFieldTrialsStrings a b) ∧ CleanMap m ∧
      ∀ k, m.lookup k = (itemsB.lookup k).or (itemsA.lookup k) := by
  have hempty : CleanMap [] := ⟨List.Pairwise.nil, by simp⟩
  have hmap := (hempty.foldl_set ha.clean).foldl_set hb.clean
  refine ⟨_, ⟨hmap.clean, ?_, hmap.unambiguous⟩, hmap, ?_⟩
  · rw [mergeFieldTrialsStrings, ha.insertOrReplace, hb.insertOrReplace, foldl_write, nil_append]
  · intro k
    rw [lookup_foldl_set hb.unambiguous, lookup_foldl_set ha.unambiguous, lookup_nil,
      Option.or_none]

theorem merge_assoc {a b c : Str} {itemsA itemsB itemsC : List (Str × Str)}
    (ha : Spells itemsA a) (hb : Spells itemsB b) (hc : Spells itemsC c) :
    mergeFieldTrialsStrings (mergeFieldTrialsStrings a b) c =
      mergeFieldTrialsStrings a (mergeFieldTrialsStrings b c) := by
  obtain ⟨ab, hab, -, hlookupAB⟩ := merge_spells ha hb
  obtain ⟨bc, hbc, -, hlookupBC⟩ := merge_spells hb hc
  obtain ⟨left, hleft, hleftMap, hlookupLeft⟩ := merge_spells hab hc
  obtain ⟨right, hright, hrightMap, hlookupRight⟩ := merge_spells ha hbc
  have heq : left = right := by
    apply Sorted.ext (strictTotal_list strictTotal_uint8) hleftMap.sorted hrightMap.sorted
    intro k
    rw [hlookupLeft, hlookupRight, hlookupAB, hlookupBC, Option.or_assoc]
  rw [hleft.writes, hright.writes, heq]

/-- **Merging field trial strings.**  The merged string is valid; a lookup in it finds the
group of the second string, else that of the first one, else the empty string; merging is
associative, and merging a string with itself keeps every lookup. -/
theorem merge_prefers_second (a b : Str) (ha : fieldTrialsStringIsValid a = true)
    (hb : fieldTrialsStringIsValid b = true) :
    fieldTrialsStringIsValid (mergeFieldTrialsStrings a b) = true ∧
      (∀ name,
        (∀ group, Assigns b name group →
          findFullName (some (mergeFieldTrialsStrings a b)) name = group) ∧
        (∀ group, (∀ other, ¬ Assigns b name other) → Assigns a name group →
          findFullName (some (mergeFieldTrialsStrings a b)) name = group) ∧
        ((∀ other, ¬ Assigns b name other) → (∀ other, ¬ Assigns a name other) →
          findFullName (some (mergeFieldTrialsStrings a b)) name = [])) ∧
      (∀ c, fieldTrialsStringIsValid c = true →
        mergeFieldTrialsStrings (mergeFieldTrialsStrings a b) c =
          mergeFieldTrialsStrings a (mergeFieldTrialsStrings b c)) ∧
      ∀ name, findFullName (some (mergeFieldTrialsStrings a a)) name =
        findFullName (some a) name := by
  obtain ⟨itemsA, hA⟩ := (isValid_iff a).mp ha
  obtain ⟨itemsB, hB⟩ := (isValid_iff b).mp hb
  obtain ⟨m, hm, -, hlookup⟩ := merge_spells hA hB
  refine ⟨(isValid_iff _).mpr ⟨m, hm⟩, ?_, ?_, ?_⟩
  · intro name
    rw [hm.findFullName, hlookup]
    refine ⟨?_, ?_, ?_⟩
    · intro group hgroup
      rw [hB.lookup_of_assigns hgroup]
      rfl
    · intro group hnone hgroup
      rw [hB.lookup_eq_none hnone, hA.lookup_of_assigns hgroup]
      rfl
    · intro hnoneB hnoneA
      rw [hB.lookup_eq_none hnoneB, hA.lookup_eq_none hnoneA]
      rfl
  · intro c hc
    obtain ⟨itemsC, hC⟩ := (isValid_iff c).mp hc
    exact merge_assoc hA hB hC
  · intro name
    obtain ⟨same, hsame, -, hlookupSame⟩ := merge_spells hA hA
    rw [hsame.findFullName, hA.findFullName, hlookupSame, Option.or_self]

/-- `A/x/B/y/` merged with `A/z/`. -/
theorem merge_prefers_second_sample :
    let a : Str := [65, 47, 120, 47, 66, 47, 121, 47]
    let b : Str := [65, 47, 122, 47]
    (fieldTrialsStringIsValid a = true ∧ fieldTrialsStringIsValid b = true) ∧
      findFullName (some (mergeFieldTrialsStrings a b)) [65] = [122] :=
  ⟨⟨by decide, by decide⟩,
    ((merge_prefers_second [65, 47, 120, 47, 66, 47, 121, 47] [65, 47, 122, 47] (by decide)
      (by decide)).2.1 [65]).1 [122] ⟨[([65], [122])], by
        intro p hp
        rw [mem_singleton.mp hp]
        exact ⟨by decide, by decide, by decide, by decide⟩, rfl, mem_singleton_self _⟩⟩

example : mergeFieldTrialsStrings [65, 47, 120, 47, 66, 47, 121, 47] [65, 47, 122, 47] =
    [65, 47, 122, 47, 66, 47, 121, 47] := by decide

end WebrtcCore.Ports.FieldTrial
