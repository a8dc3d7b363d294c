/-!
# Handles on shared stores

A program that shares stores between handles keeps a list of stores and a list of handles, each of
which may point to a store.  A write through one handle is seen through every handle on the same
store.

`views` lists the handles together with their stores.  Everything that can be seen of a family is
a function of it, so a rule for `views` is a frame rule for all of that at once.
-/

namespace WebrtcCore.Verified.Sharing

open List Option

variable {σ η : Type}

/-- Stores and handles on them.  Stores are not removed; one that no handle
points to is gone for the program. -/
structure Family (σ η : Type) where
  stores : List σ
  handles : List η

section Views

variable (addr : η → Option Nat)

/-- A handle with the store that it points to. -/
def view (stores : List σ) (handle : η) : Option σ × η := ((addr handle).bind (stores[·]?), handle)

/-- All handles with their stores. -/
def views (f : Family σ η) : List (Option σ × η) := f.handles.map (view addr f.stores)

/-- The number of handles on a store. -/
def refs (f : Family σ η) (a : Nat) : Nat := f.handles.countP fun h => addr h = some a

/-- No handle dangles. -/
def Closed (f : Family σ η) : Prop :=
  ∀ handle ∈ f.handles, ∀ a, addr handle = some a → a < f.stores.length

variable {addr} {f : Family σ η}

theorem views_length : (views addr f).length = f.handles.length := length_map _

theorem views_getElem? (i : Nat) :
    (views addr f)[i]? = f.handles[i]?.map (view addr f.stores) := getElem?_map

theorem views_set (i : Nat) (handle : η) :
    views addr { f with handles := f.handles.set i handle } =
      (views addr f).set i (view addr f.stores handle) := map_set

theorem views_push (handle : η) :
    views addr { f with handles := f.handles ++ [handle] } =
      views addr f ++ [view addr f.stores handle] := map_append

theorem views_store (h : Closed addr f) (store : σ) :
    views addr { f with stores := f.stores ++ [store] } = views addr f := by
  apply map_congr_left
  intro handle hmem
  unfold view
  cases haddr : addr handle with
  | none => rfl
  | some a =>
    have hlt := h handle hmem a haddr
    rw [bind_some, bind_some, getElem?_append_left hlt]

variable {handle : η} {i a : Nat}

theorem view_last (stores : List σ) (store : σ) (hnew : addr handle = some stores.length) :
    view addr (stores ++ [store]) handle = (some store, handle) := by
  rw [view, hnew, bind_some, getElem?_concat_length]

theorem views_point (h : Closed addr f) (i : Nat) (store : σ)
    (hnew : addr handle = some f.stores.length) :
    views addr ⟨f.stores ++ [store], f.handles.set i handle⟩ =
      (views addr f).set i (some store, handle) := by
  rw [← view_last f.stores store hnew, ← views_store h store]
  exact views_set (f := { f with stores := f.stores ++ [store] }) i handle

theorem not_lt_of_countP {p : η → Bool} {l : List η} {k : Nat} {x y : η} (hcount : l.countP p ≤ 1)
    (hx : l[i]? = some x) (hpx : p x = true) (hy : l[k]? = some y) (hpy : p y = true) :
    ¬i < k := by
  intro hlt
  have hfront : 0 < (l.take k).countP p :=
    countP_pos_iff.2 ⟨x, mem_of_getElem? ((getElem?_take_of_lt hlt).trans hx), hpx⟩
  have hback : 0 < (l.drop k).countP p :=
    countP_pos_iff.2 ⟨y, mem_of_getElem? (i := 0) (getElem?_drop.trans hy), hpy⟩
  rw [← take_append_drop k l, countP_append] at hcount
  omega

theorem views_modify {old : η} (store : σ) (hsole : refs addr f a = 1)
    (hold : f.handles[i]? = some old) (holdaddr : addr old = some a) (haddr : addr handle = some a)
    (ha : a < f.stores.length) :
    views addr ⟨f.stores.set a store, f.handles.set i handle⟩ =
      (views addr f).set i (some store, handle) := by
  have hi : i < f.handles.length := (List.getElem?_eq_some_iff.1 hold).1
  apply ext_getElem?
  intro k
  rw [views_getElem?]
  by_cases hk : i = k
  · subst hk
    rw [getElem?_set_self hi, getElem?_set_self (by rw [views_length]; exact hi),
      map_some, view, haddr, bind_some, getElem?_set_self ha]
  · rw [getElem?_set_ne hk, getElem?_set_ne hk, views_getElem?]
    cases hother : f.handles[k]? with
    | none => rfl
    | some other =>
      have hne : addr other ≠ some a := by
        intro heq
        have hcount := Nat.le_of_eq hsole
        exact (Nat.lt_or_gt_of_ne hk).elim
          (not_lt_of_countP hcount hold (decide_eq_true holdaddr) hother (decide_eq_true heq))
          (not_lt_of_countP hcount hother (decide_eq_true heq) hold (decide_eq_true holdaddr))
      rw [map_some, map_some, view, view]
      cases hother' : addr other with
      | none => rfl
      | some b =>
        rw [bind_some, bind_some, getElem?_set_ne]
        intro heq
        exact hne (by rw [hother', heq])

theorem refs_point (h : Closed addr f) (hi : i < f.handles.length) (store : σ)
    (hnew : addr handle = some f.stores.length) :
    refs addr ⟨f.stores ++ [store], f.handles.set i handle⟩ f.stores.length = 1 := by
  have hzero : refs addr f f.stores.length = 0 := by
    apply countP_eq_zero.2
    intro other hmem
    rw [decide_eq_true_eq]
    intro haddr
    exact Nat.lt_irrefl _ (h other hmem _ haddr)
  unfold refs at hzero ⊢
  rw [countP_set hi, hzero, Nat.zero_sub, if_pos (decide_eq_true hnew)]

theorem refs_pos (hhandle : f.handles[i]? = some handle) (haddr : addr handle = some a) :
    0 < refs addr f a :=
  countP_pos_iff.2 ⟨handle, mem_of_getElem? hhandle, decide_eq_true haddr⟩

theorem refs_point_old (h : Closed addr f) {old : η} (store : σ) (handle : η)
    (hold : f.handles[i]? = some old) (holdaddr : addr old = some a)
    (hnew : addr handle = some f.stores.length) :
    refs addr ⟨f.stores ++ [store], f.handles.set i handle⟩ a = refs addr f a - 1 := by
  obtain ⟨hi, rfl⟩ := List.getElem?_eq_some_iff.1 hold
  have hlt := h _ (getElem_mem hi) a holdaddr
  have hne : addr handle ≠ some a := by
    rw [hnew]
    intro heq
    cases heq
    exact Nat.lt_irrefl _ hlt
  unfold refs
  rw [countP_set hi, if_pos (decide_eq_true holdaddr),
    if_neg (by rw [decide_eq_true_eq]; exact hne), Nat.add_zero]

end Views

end WebrtcCore.Verified.Sharing
