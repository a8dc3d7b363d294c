import Mathlib.Algebra.GroupWithZero.Nat

/-!
# Files of one directory

A directory is a list of named files in some order, with no name twice.  `contents`
is what an observer sees; each operation has one equation for it, and the names
are those whose file has contents.
-/

namespace WebrtcCore.Verified

variable {ν β : Type} [DecidableEq ν]

/-- The files of a directory, in the order in which they are listed. -/
structure Directory (ν β : Type) where
  entries : List (ν × List β)
  nodup : (entries.map (·.1)).Nodup

namespace Directory

def names (d : Directory ν β) : List ν := d.entries.map (·.1)

/-- What a file holds, if it exists. -/
def contents (d : Directory ν β) (x : ν) : Option (List β) := (d.entries.find? (·.1 = x)).map (·.2)

/-- The total size of some files. -/
def sizeOf (d : Directory ν β) (xs : List ν) : Nat :=
  (xs.map fun x => ((d.contents x).getD []).length).sum

def remove (d : Directory ν β) (x : ν) : Directory ν β where
  entries := d.entries.filter (·.1 ≠ x)
  nodup := d.nodup.sublist (List.filter_sublist.map _)

/-- Create a file, or replace what it held. -/
def put (d : Directory ν β) (x : ν) (bytes : List β) : Directory ν β where
  entries := (x, bytes) :: (d.remove x).entries
  nodup := by
    rw [List.map_cons, List.nodup_cons]
    refine ⟨?_, (d.remove x).nodup⟩
    simp [remove]

def rename (d : Directory ν β) (old new : ν) : Directory ν β :=
  match d.contents old with
  | none => d
  | some bytes => (d.remove old).put new bytes

/-- Write at the end of a file. -/
def append (d : Directory ν β) (x : ν) (more : List β) : Directory ν β :=
  match d.contents x with
  | none => d
  | some bytes => d.put x (bytes ++ more)

variable (d : Directory ν β)

theorem mem_names {x : ν} : x ∈ d.names ↔ d.contents x ≠ none := by
  rw [contents]
  simp [names]

@[simp] theorem contents_remove (x y : ν) :
    (d.remove x).contents y = if y = x then none else d.contents y := by
  simp only [contents, remove, List.find?_filter]
  by_cases h : y = x
  · subst h
    simp
  · rw [if_neg h]
    congr 2
    funext entry
    by_cases hentry : entry.1 = y
    · simp [hentry, h]
    · simp [hentry]

theorem contents_foldl_remove (xs : List ν) :
    ∀ (d : Directory ν β) (y : ν),
      (xs.foldl remove d).contents y = if y ∈ xs then none else d.contents y := by
  induction xs with
  | nil => simp
  | cons x xs ih =>
    intro d y
    rw [List.foldl_cons, ih]
    by_cases h : y = x
    · simp [h]
    · simp [h]

@[simp] theorem contents_put (x y : ν) (bytes : List β) :
    (d.put x bytes).contents y = if y = x then some bytes else d.contents y := by
  by_cases h : y = x
  · simp [contents, put, h]
  · have hrest := d.contents_remove x y
    rw [if_neg h] at hrest ⊢
    rw [← hrest]
    simp [contents, put, Ne.symm h]

theorem contents_append {x : ν} {bytes : List β} (hx : d.contents x = some bytes) (y : ν)
    (more : List β) :
    (d.append x more).contents y = if y = x then some (bytes ++ more) else d.contents y := by
  rw [append, hx]
  exact d.contents_put x y _

theorem contents_rename {old new : ν} (hnew : d.contents new = none) (y : ν) :
    (d.rename old new).contents y =
      if y = new then d.contents old else if y = old then none else d.contents y := by
  unfold rename
  cases hold : d.contents old with
  | none =>
    by_cases hy : y = new
    · rw [if_pos hy, hy, hnew]
    · rw [if_neg hy]
      by_cases hy' : y = old
      · rw [if_pos hy', hy', hold]
      · rw [if_neg hy']
  | some bytes => simp

end Directory

end WebrtcCore.Verified
