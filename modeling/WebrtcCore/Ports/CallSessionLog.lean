import Mathlib.Data.List.Sort
import WebrtcCore.Verified.Decimal
import WebrtcCore.Verified.Directory
import WebrtcCore.Verified.Rotation

/-!
# The rotating log files of a call session

Port of `FileRotatingStream`, `CallSessionFileRotatingStream` and `FileRotatingStreamReader`.
A session writes to file 0 until half of the budget is used, and from then on to smaller files
that rotate: file `i` becomes file `i + 1`, the oldest is deleted.  File 0 is spared because
`OnRotation` lowers the rotation index.  The reader puts the files in order by their names, which
works because the numbers in them are padded with zeros.

Names are without the path of the directory, and file operations succeed.  `Layout` says which
bytes of the session each file holds.
-/

namespace WebrtcCore.Ports.CallSessionLog

open Verified Decimal Directory Rotation List Option

abbrev Name := List Char
abbrev Bytes := List UInt8
abbrev Dir := Directory Name UInt8

/-! ### The stream -/

def kCallSessionLogPrefix : Name := "webrtc_log".toList

/-- The postfix is printed into a buffer of 32 characters. -/
def getFilePath (filePrefix : Name) (index numFiles : Nat) : Name :=
  filePrefix ++ ('_' :: padded (decimal (numFiles - 1)).length index).take 31

def getFilesWithPrefix (dir : Dir) (filePrefix : Name) : List Name :=
  dir.names.filter fun name => name.take filePrefix.length = filePrefix

def isFile (dir : Dir) (name : Name) : Bool := (dir.contents name).isSome

structure FileRotatingStream where
  filePrefix : Name
  fileNames : List Name
  maxFileSize : Nat
  rotationIndex : Nat
  currentBytesWritten : Nat := 0
  isOpen : Bool := false
deriving DecidableEq, Repr

def FileRotatingStream.new (filePrefix : Name) (maxFileSize numFiles : Nat) :
    FileRotatingStream where
  filePrefix
  fileNames := (List.range numFiles).map fun i => getFilePath filePrefix i numFiles
  maxFileSize
  rotationIndex := numFiles - 1

structure CallSessionFileRotatingStream extends FileRotatingStream where
  maxTotalLogSize : Nat
  numRotations : Nat := 0
deriving DecidableEq, Repr

def kRotatingLogFileDefaultSize : Nat := 1024 * 1024

def getNumRotatingLogFiles (maxTotalLogSize : Nat) : Nat :=
  max 2 (maxTotalLogSize / 2 / kRotatingLogFileDefaultSize)

def getRotatingLogSize (maxTotalLogSize : Nat) : Nat :=
  if getNumRotatingLogFiles maxTotalLogSize > 2 then kRotatingLogFileDefaultSize
  else maxTotalLogSize / 4

def CallSessionFileRotatingStream.new (maxTotalLogSize : Nat) :
    CallSessionFileRotatingStream where
  toFileRotatingStream := .new kCallSessionLogPrefix (maxTotalLogSize / 2)
    (getNumRotatingLogFiles maxTotalLogSize + 1)
  maxTotalLogSize

def CallSessionFileRotatingStream.onRotation (stream : CallSessionFileRotatingStream) :
    CallSessionFileRotatingStream :=
  let stream := { stream with numRotations := stream.numRotations + 1 }
  if stream.numRotations = 1 then
    { stream with maxFileSize := getRotatingLogSize stream.maxTotalLogSize }
  else if stream.numRotations = stream.fileNames.length - 1 then
    { stream with rotationIndex := stream.rotationIndex - 1 }
  else stream

/-- A stream and the directory it writes to. -/
structure Session where
  stream : CallSessionFileRotatingStream
  dir : Dir

def Session.closeCurrentFile (s : Session) : Session :=
  if s.stream.isOpen then
    { s with stream := { s.stream with currentBytesWritten := 0, isOpen := false } }
  else s

/-- `OpenCurrentFile`; the current file is always the one at index 0. -/
def Session.openCurrentFile (s : Session) : Option Session :=
  (s.closeCurrentFile.stream.fileNames[0]?).map fun filePath =>
    { stream := { s.closeCurrentFile.stream with isOpen := true }
      dir := s.closeCurrentFile.dir.put filePath [] }

/-- `Open`: what is left of earlier sessions is deleted. -/
def Session.openStream (s : Session) : Option Session :=
  Session.openCurrentFile
    { s with
      dir := (getFilesWithPrefix s.dir s.stream.filePrefix).foldl Directory.remove s.dir }

/-- The renaming loop of `RotateFiles`, from an index down to 1. -/
def moveFiles (fileNames : List Name) : Nat → Dir → Option Dir
  | 0, dir => some dir
  | i + 1, dir =>
    (fileNames[i + 1]?).bind fun rotatedName =>
      (fileNames[i]?).bind fun unrotatedName =>
        moveFiles fileNames i
          (if isFile dir unrotatedName then dir.rename unrotatedName rotatedName else dir)

def Session.rotateFiles (s : Session) : Option Session :=
  let s := s.closeCurrentFile
  (s.stream.fileNames[s.stream.rotationIndex]?).bind fun fileToDelete =>
    (moveFiles s.stream.fileNames s.stream.rotationIndex
        (if isFile s.dir fileToDelete then s.dir.remove fileToDelete else s.dir)).bind
      fun dir =>
        ({ s with dir } : Session).openCurrentFile.map fun s =>
          { s with stream := s.stream.onRotation }

inductive StreamResult where
  | success
  | error
deriving DecidableEq, Repr

/-- `file_.Write` of some bytes, and the counter. -/
def Session.writeFile (s : Session) (data : Bytes) : Option Session :=
  (s.stream.fileNames[0]?).map fun filePath =>
    { stream :=
        { s.stream with currentBytesWritten := s.stream.currentBytesWritten + data.length }
      dir := s.dir.append filePath data }

/-- `Write`, with the result and the number of bytes written. -/
def Session.write (s : Session) (data : Bytes) : Option ((StreamResult × Nat) × Session) :=
  if s.stream.isOpen then
    let remainingBytes := s.stream.maxFileSize - s.stream.currentBytesWritten
    let writeLength := min data.length remainingBytes
    (s.writeFile (data.take writeLength)).bind fun s =>
      if s.stream.currentBytesWritten ≥ s.stream.maxFileSize then
        s.rotateFiles.map fun s => ((.success, writeLength), s)
      else some ((.success, writeLength), s)
  else some ((.error, 0), s)

/-- A caller that repeats `Write` until the piece is consumed. -/
def Session.writePiece : Nat → Session → Bytes → Option Session
  | 0, _, _ => none
  | fuel + 1, s, data =>
    (s.write data).bind fun r =>
      match r.1.1 with
      | .error => none
      | .success =>
        if data.drop r.1.2 = [] then some r.2
        else Session.writePiece fuel r.2 (data.drop r.1.2)

def Session.writePieces (s : Session) : List Bytes → Option Session
  | [] => some s
  | piece :: pieces =>
    (s.writePiece (piece.length + 1) piece).bind fun s => s.writePieces pieces

/-- A session on a directory: construction, `Open`, and the pieces. -/
def callSession (maxTotalLogSize : Nat) (dir : Dir) (pieces : List Bytes) : Option Session :=
  (Session.openStream ⟨.new maxTotalLogSize, dir⟩).bind (·.writePieces pieces)

/-! ### The reader -/

open CallSessionFileRotatingStream

/-- The files in the order `std::greater` gives their names. -/
def readerFileNames (dir : Dir) (filePrefix : Name) : List Name :=
  (getFilesWithPrefix dir filePrefix).insertionSort (fun a b => ¬ a < b)

def getSize (dir : Dir) (fileNames : List Name) : Nat := dir.sizeOf fileNames

/-- The loop of `ReadAll`, with the room that is left in the buffer. -/
def readAll (dir : Dir) : List Name → Nat → Bytes
  | [], _ => []
  | fileName :: fileNames, size =>
    if 0 < size then
      match dir.contents fileName with
      | none => []
      | some bytes =>
        bytes.take size ++ readAll dir fileNames (size - (bytes.take size).length)
    else []

/-- What a reader that asks for the size first gets. -/
def readSession (dir : Dir) : Bytes :=
  readAll dir (readerFileNames dir kCallSessionLogPrefix)
    (getSize dir (readerFileNames dir kCallSessionLogPrefix))

/-! ### Sizes and names -/

variable (budget : Nat)

theorem two_le_numFiles : 2 ≤ getNumRotatingLogFiles budget := Nat.le_max_left 2 _

theorem rotatingLogSize_pos {budget : Nat} (h : 4 ≤ budget) : 0 < getRotatingLogSize budget := by
  unfold getRotatingLogSize kRotatingLogFileDefaultSize
  split <;> omega

theorem rotating_le_half :
    getNumRotatingLogFiles budget * getRotatingLogSize budget ≤ budget / 2 := by
  have htwo := two_le_numFiles budget
  unfold getRotatingLogSize
  split
  · unfold getNumRotatingLogFiles kRotatingLogFileDefaultSize at *
    omega
  · have heq : getNumRotatingLogFiles budget = 2 := by omega
    rw [heq]
    omega

theorem numFiles_le (h : 4 ≤ budget) : getNumRotatingLogFiles budget ≤ budget := by
  unfold getNumRotatingLogFiles kRotatingLogFileDefaultSize
  omega

/-- The name of the file at an index. -/
def fileName (budget i : Nat) : Name :=
  getFilePath kCallSessionLogPrefix i (getNumRotatingLogFiles budget + 1)

/-- A size in 64 bits leaves room for the postfix in its buffer. -/
structure Budget (budget : Nat) : Prop where
  atLeast : 4 ≤ budget
  size_t : budget < 2 ^ 64

section Names

variable {budget : Nat} (hM : Budget budget)

include hM

theorem fileName_eq {i : Nat} (hi : i ≤ getNumRotatingLogFiles budget) :
    fileName budget i = kCallSessionLogPrefix ++
      '_' :: padded (decimal (getNumRotatingLogFiles budget)).length i := by
  have hn : getNumRotatingLogFiles budget < 10 ^ 20 := by
    have hle := numFiles_le budget hM.atLeast
    have hlt := hM.size_t
    omega
  have hwidth : (decimal (getNumRotatingLogFiles budget)).length ≤ 20 :=
    decimal_length_le (by decide) hn
  have hlen := length_padded (n := i) Nat.length_toDigits_pos
    (Nat.lt_of_le_of_lt hi (lt_pow_decimal_length _))
  unfold fileName getFilePath
  rw [Nat.add_sub_cancel, take_of_length_le]
  rw [length_cons]
  unfold decimal at *
  omega

theorem fileName_lt {i j : Nat} (h : i < j) (hj : j ≤ getNumRotatingLogFiles budget) :
    fileName budget i < fileName budget j := by
  rw [fileName_eq hM (Nat.le_trans (Nat.le_of_lt h) hj), fileName_eq hM hj]
  apply append_left_lt
  rw [cons_lt_cons_iff]
  exact Or.inr ⟨rfl, padded_lt h (Nat.lt_of_le_of_lt hj (lt_pow_decimal_length _))⟩

theorem fileName_ne {i j : Nat} (hi : i ≤ getNumRotatingLogFiles budget)
    (hj : j ≤ getNumRotatingLogFiles budget) (h : i ≠ j) :
    fileName budget i ≠ fileName budget j := by
  intro heq
  cases Nat.lt_or_gt_of_ne h with
  | inl hlt => exact List.lt_irrefl _ (heq ▸ fileName_lt hM hlt hj)
  | inr hgt => exact List.lt_irrefl _ (heq ▸ fileName_lt hM hgt hi)

end Names

theorem fileName_hasPrefix (budget i : Nat) :
    (fileName budget i).take kCallSessionLogPrefix.length = kCallSessionLogPrefix := rfl

theorem new_fileNames {i : Nat} (hi : i ≤ getNumRotatingLogFiles budget) :
    (new budget).fileNames[i]? = some (fileName budget i) := by
  simp only [new, FileRotatingStream.new, getElem?_map]
  rw [getElem?_range (Nat.lt_succ_of_le hi)]
  rfl

/-! ### Renaming -/

theorem rename_of_isFile (dir : Dir) (old new : Name) :
    (if isFile dir old then dir.rename old new else dir) = dir.rename old new := by
  split
  · rfl
  · rename_i hfile
    rw [Directory.rename, show dir.contents old = none by simpa [isFile] using hfile]

theorem moveFiles_spec {fileNames : List Name} {name : Nat → Name} {n : Nat}
    (hget : ∀ i ≤ n, fileNames[i]? = some (name i))
    (hne : ∀ i ≤ n, ∀ j ≤ n, i ≠ j → name i ≠ name j) (k : Nat) (hk : k ≤ n) (dir : Dir)
    (hfree : dir.contents (name k) = none) :
    ∃ dir', moveFiles fileNames k dir = some dir' ∧
      (∀ i < k, dir'.contents (name (i + 1)) = dir.contents (name i)) ∧
      dir'.contents (name 0) = none ∧
      ∀ x, (∀ i ≤ k, x ≠ name i) → dir'.contents x = dir.contents x := by
  induction k generalizing dir with
  | zero => exact ⟨dir, rfl, fun i hi => absurd hi (Nat.not_lt_zero i), hfree, fun _ _ => rfl⟩
  | succ k ih =>
    have hmoved := @Directory.contents_rename _ _ _ dir (name k) _ hfree
    have hsucc : ∀ i ≤ k, name i ≠ name (k + 1) := fun i hi =>
      hne i (by omega) (k + 1) hk (by omega)
    obtain ⟨dir', hdir', hup, hzero, hsame⟩ := ih (Nat.le_of_succ_le hk)
      (dir.rename (name k) (name (k + 1)))
      (by rw [hmoved, if_neg (hsucc k (Nat.le_refl k)), if_pos rfl])
    refine ⟨dir', ?_, ?_, hzero, ?_⟩
    · rw [moveFiles, hget (k + 1) hk, hget k (Nat.le_of_succ_le hk), bind_some, bind_some,
        rename_of_isFile, hdir']
    · intro i hi
      by_cases hik : i = k
      · rw [hik, hsame _ (fun j hj => (hsucc j hj).symm), hmoved, if_pos rfl]
      · have hlt : i < k := by omega
        rw [hup i hlt, hmoved, if_neg (hsucc i (Nat.le_of_lt hlt)),
          if_neg (hne i (by omega) k (by omega) hik)]
    · intro x hx
      rw [hsame x (fun i hi => hx i (by omega)), hmoved, if_neg (hx (k + 1) (Nat.le_refl _)),
        if_neg (hx k (by omega))]

/-! ### What the files hold -/

/-- The files of a session hold the segments of a layout, file 0 the newest, and no
other file has the prefix. -/
structure Holds (budget : Nat) (written newest : Bytes) (others : List Bytes)
    (s : Session) : Prop where
  layout : Layout (budget / 2) (getRotatingLogSize budget)
    (getNumRotatingLogFiles budget) written s.stream.numRotations (newest :: others)
  fileNames : s.stream.fileNames = (new budget).fileNames
  total : s.stream.maxTotalLogSize = budget
  isOpen : s.stream.isOpen = true
  maxFileSize : s.stream.maxFileSize =
    room (budget / 2) (getRotatingLogSize budget) s.stream.numRotations
  rotationIndex : s.stream.rotationIndex =
    victim (getNumRotatingLogFiles budget) s.stream.numRotations
  currentBytesWritten : s.stream.currentBytesWritten = newest.length
  contents : ∀ i ≤ getNumRotatingLogFiles budget,
    s.dir.contents (fileName budget i) = (newest :: others)[i]?
  only : ∀ x, x.take kCallSessionLogPrefix.length = kCallSessionLogPrefix →
    (∀ i ≤ getNumRotatingLogFiles budget, x ≠ fileName budget i) →
      s.dir.contents x = none

theorem victim_le (n rotations : Nat) : victim n rotations ≤ n := by
  unfold victim
  split <;> omega

section Steps

variable {budget : Nat} {written newest : Bytes} {others : List Bytes} {s : Session}

theorem Holds.getElem_fileNames (h : Holds budget written newest others s) {i : Nat}
    (hi : i ≤ getNumRotatingLogFiles budget) :
    s.stream.fileNames[i]? = some (fileName budget i) := by
  rw [h.fileNames, new_fileNames budget hi]

theorem Holds.contents_zero (h : Holds budget written newest others s) :
    s.dir.contents (fileName budget 0) = some newest := by
  rw [h.contents 0 (Nat.zero_le _), getElem?_cons_zero]

theorem writeFile_spec (hM : Budget budget) (h : Holds budget written newest others s)
    {data : Bytes} (hroom : newest.length + data.length ≤ s.stream.maxFileSize) :
    ∃ s', s.writeFile data = some s' ∧ Holds budget (written ++ data) (newest ++ data) others s' ∧
      s'.stream.maxFileSize = s.stream.maxFileSize := by
  rw [Session.writeFile, h.getElem_fileNames (Nat.zero_le _)]
  refine ⟨_, rfl, { h with
    layout := h.layout.write (by rwa [← h.maxFileSize])
    currentBytesWritten := by rw [h.currentBytesWritten, length_append]
    contents := ?_
    only := ?_ }, rfl⟩
  · intro i hi
    rw [s.dir.contents_append h.contents_zero]
    cases i with
    | zero => rw [if_pos rfl, getElem?_cons_zero]
    | succ i =>
      rw [if_neg (fileName_ne hM hi (Nat.zero_le _) (Nat.succ_ne_zero i)), h.contents _ hi,
        getElem?_cons_succ, getElem?_cons_succ]
  · intro x hx hne
    rw [s.dir.contents_append h.contents_zero, if_neg (hne 0 (Nat.zero_le _))]
    exact h.only x hx hne

theorem moved_contents (hM : Budget budget) (h : Holds budget written newest others s) {k : Nat}
    (hk : k ≤ getNumRotatingLogFiles budget) :
    ∃ dir, moveFiles s.stream.fileNames k
        (if isFile s.dir (fileName budget k)
          then s.dir.remove (fileName budget k) else s.dir) = some dir ∧
      (∀ i < getNumRotatingLogFiles budget,
        dir.contents (fileName budget (i + 1)) = ((newest :: others).eraseIdx k)[i]?) ∧
      ∀ x, (∀ i ≤ getNumRotatingLogFiles budget, x ≠ fileName budget i) →
        dir.contents x = s.dir.contents x := by
  have hremoved : ∀ y, (if isFile s.dir (fileName budget k)
      then s.dir.remove (fileName budget k) else s.dir).contents y =
      if y = fileName budget k then none else s.dir.contents y := by
    intro y
    rw [← s.dir.contents_remove]
    by_cases hfile : isFile s.dir (fileName budget k)
    · rw [if_pos hfile]
    · rw [if_neg hfile, s.dir.contents_remove]
      by_cases hy : y = fileName budget k
      · rw [hy]
        simpa [isFile] using hfile
      · rw [if_neg hy]
  obtain ⟨dir, hdir, hup, -, hsame⟩ := moveFiles_spec
    (fun i hi => h.getElem_fileNames hi) (fun i hi j hj => fileName_ne hM hi hj) k hk _
    (by rw [hremoved, if_pos rfl])
  refine ⟨dir, hdir, ?_, ?_⟩
  · intro i hi
    rw [getElem?_eraseIdx]
    by_cases hik : i < k
    · rw [hup i hik, hremoved, if_neg (fileName_ne hM (by omega) hk (by omega)), if_pos hik,
        h.contents i (by omega)]
    · have hne : ∀ j ≤ k, fileName budget (i + 1) ≠ fileName budget j :=
        fun j hj => fileName_ne hM hi (by omega) (by omega)
      rw [hsame _ hne, hremoved, if_neg (hne k (Nat.le_refl k)), if_neg hik, h.contents _ hi]
  · intro x hx
    rw [hsame x (fun i hi => hx i (by omega)), hremoved, if_neg (hx k hk)]

variable (stream : CallSessionFileRotatingStream)

theorem onRotation_spec {half n : Nat} (hn : 2 ≤ n) (hnames : stream.fileNames.length = n + 1)
    (hmax : stream.maxFileSize = room half (getRotatingLogSize stream.maxTotalLogSize)
      stream.numRotations) (hindex : stream.rotationIndex = victim n stream.numRotations) :
    let next := stream.onRotation
    next.fileNames = stream.fileNames ∧ next.maxTotalLogSize = stream.maxTotalLogSize ∧
      next.isOpen = stream.isOpen ∧ next.currentBytesWritten = stream.currentBytesWritten ∧
      next.numRotations = stream.numRotations + 1 ∧
      next.maxFileSize =
        room half (getRotatingLogSize stream.maxTotalLogSize) (stream.numRotations + 1) ∧
      next.rotationIndex = victim n (stream.numRotations + 1) := by
  unfold onRotation room victim at *
  simp only [hnames]
  split
  · refine ⟨rfl, rfl, rfl, rfl, rfl, rfl, ?_⟩
    simp only [hindex]
    split <;> split <;> omega
  · rw [if_neg (by omega)] at hmax
    split
    · -- the first file has reached the last place
      refine ⟨rfl, rfl, rfl, rfl, rfl, hmax, ?_⟩
      simp only [hindex]
      split <;> split <;> omega
    · refine ⟨rfl, rfl, rfl, rfl, rfl, hmax, ?_⟩
      simp only [hindex]
      split <;> split <;> omega

theorem rotateFiles_spec (hM : Budget budget) (h : Holds budget written newest others s)
    (hfilled : newest.length = s.stream.maxFileSize) :
    ∃ s', s.rotateFiles = some s' ∧
      Holds budget written []
        ((newest :: others).eraseIdx
          (victim (getNumRotatingLogFiles budget) s.stream.numRotations)) s' := by
  have hk := victim_le (getNumRotatingLogFiles budget) s.stream.numRotations
  rw [← h.rotationIndex] at hk
  obtain ⟨dir, hdir, hup, hsame⟩ := moved_contents hM h hk
  have hlength : s.stream.fileNames.length = getNumRotatingLogFiles budget + 1 := by
    rw [h.fileNames]
    simp [new, FileRotatingStream.new]
  have hrun : s.rotateFiles = some
      ⟨onRotation { s.stream with currentBytesWritten := 0, isOpen := true },
        dir.put (fileName budget 0) []⟩ := by
    simp [Session.rotateFiles, Session.closeCurrentFile, h.isOpen, h.getElem_fileNames hk, hdir,
      Session.openCurrentFile, h.getElem_fileNames (Nat.zero_le _)]
  have hmax := h.maxFileSize
  rw [← h.total] at hmax
  obtain ⟨hnames, htotal, hopen, hbytes, hrotations, hsize, hindex⟩ := onRotation_spec
    { s.stream with currentBytesWritten := 0, isOpen := true } (two_le_numFiles budget) hlength
    hmax h.rotationIndex
  refine ⟨_, hrun, ?_⟩
  constructor
  case layout =>
    rw [h.maxFileSize] at hfilled
    rw [hrotations]
    exact h.layout.rotate (two_le_numFiles budget) hfilled
  case contents =>
    intro i hi
    rw [dir.contents_put]
    cases i with
    | zero => rw [if_pos rfl, getElem?_cons_zero]
    | succ i =>
      rw [if_neg (fileName_ne hM hi (Nat.zero_le _) (Nat.succ_ne_zero i)), hup i hi,
        getElem?_cons_succ, h.rotationIndex]
  case only =>
    intro x hx hne
    rw [dir.contents_put, if_neg (hne 0 (Nat.zero_le _)), hsame x hne]
    exact h.only x hx hne
  case fileNames => exact hnames.trans h.fileNames
  case total => exact htotal.trans h.total
  case isOpen => exact hopen
  case maxFileSize =>
    rw [hsize, hrotations, h.total]
  case rotationIndex =>
    rw [hindex, hrotations]
  case currentBytesWritten => exact hbytes

theorem write_spec (hM : Budget budget) (h : Holds budget written newest others s)
    (hspace : newest.length < s.stream.maxFileSize) (data : Bytes) :
    ∃ count s' newest' others', s.write data = some ((.success, count), s') ∧
      (data ≠ [] → 0 < count) ∧
      Holds budget (written ++ data.take count) newest' others' s' ∧
      newest'.length < s'.stream.maxFileSize := by
  have hcount : min data.length (s.stream.maxFileSize - s.stream.currentBytesWritten) =
      min data.length (s.stream.maxFileSize - newest.length) := by
    rw [h.currentBytesWritten]
  generalize hc : min data.length (s.stream.maxFileSize - newest.length) = count at hcount
  have hlength : (data.take count).length = count := by
    rw [length_take]
    omega
  have hpos : data ≠ [] → 0 < count := by
    intro hne
    have := length_pos_iff.mpr hne
    omega
  have hroom : newest.length + (data.take count).length ≤ s.stream.maxFileSize := by omega
  obtain ⟨s₁, hs₁, h₁, hmax⟩ := writeFile_spec hM h hroom
  by_cases hfull : s₁.stream.currentBytesWritten ≥ s₁.stream.maxFileSize
  · have hfilled : (newest ++ data.take count).length = s₁.stream.maxFileSize := by
      rw [h₁.currentBytesWritten] at hfull
      rw [length_append] at hfull ⊢
      omega
    obtain ⟨s₂, hs₂, h₂⟩ := rotateFiles_spec hM h₁ hfilled
    refine ⟨count, s₂, [], _, ?_, hpos, h₂, ?_⟩
    · simp [Session.write, h.isOpen, hcount, hs₁, hs₂, hfull]
    · rw [h₂.maxFileSize, room]
      have hsize := rotatingLogSize_pos hM.atLeast
      have hhalf : 0 < budget / 2 := by
        have := hM.atLeast
        omega
      split
      · exact hhalf
      · exact hsize
  · refine ⟨count, s₁, _, _, ?_, hpos, h₁, ?_⟩
    · simp [Session.write, h.isOpen, hcount, hs₁, hfull]
    · rw [h₁.currentBytesWritten] at hfull
      omega

theorem writePiece_spec (hM : Budget budget) (fuel : Nat) (data : Bytes)
    (h : Holds budget written newest others s) (hspace : newest.length < s.stream.maxFileSize)
    (hfuel : data.length < fuel) :
    ∃ s' newest' others', s.writePiece fuel data = some s' ∧
      Holds budget (written ++ data) newest' others' s' ∧
      newest'.length < s'.stream.maxFileSize := by
  induction fuel generalizing written newest others s data with
  | zero => exact absurd hfuel (Nat.not_lt_zero _)
  | succ fuel ih =>
    obtain ⟨count, s₁, newest₁, others₁, hs₁, hpos, h₁, hspace₁⟩ := write_spec hM h hspace data
    by_cases hdone : data.drop count = []
    · refine ⟨s₁, newest₁, others₁, ?_, ?_, hspace₁⟩
      · rw [Session.writePiece, hs₁]
        exact if_pos hdone
      · rw [take_of_length_le (drop_eq_nil_iff.mp hdone)] at h₁
        exact h₁
    · have hne : data ≠ [] := by
        rintro rfl
        exact hdone drop_nil
      have hlt : (data.drop count).length < fuel := by
        have hcount := hpos hne
        have hlength := length_pos_iff.mpr hne
        rw [length_drop]
        omega
      obtain ⟨s₂, newest₂, others₂, hs₂, h₂, hspace₂⟩ := ih (data.drop count) h₁ hspace₁ hlt
      refine ⟨s₂, newest₂, others₂, ?_, ?_, hspace₂⟩
      · rw [Session.writePiece, hs₁]
        exact (if_neg hdone).trans hs₂
      · rw [append_assoc, take_append_drop] at h₂
        exact h₂

theorem writePieces_spec (hM : Budget budget) (pieces : List Bytes)
    (h : Holds budget written newest others s) (hspace : newest.length < s.stream.maxFileSize) :
    ∃ s' newest' others', s.writePieces pieces = some s' ∧
      Holds budget (written ++ pieces.flatten) newest' others' s' ∧
      newest'.length < s'.stream.maxFileSize := by
  induction pieces generalizing written newest others s with
  | nil =>
    refine ⟨s, newest, others, rfl, ?_, hspace⟩
    rw [flatten_nil, append_nil]
    exact h
  | cons piece pieces ih =>
    obtain ⟨s₁, newest₁, others₁, hs₁, h₁, hspace₁⟩ :=
      writePiece_spec hM (piece.length + 1) piece h hspace (Nat.lt_succ_self _)
    obtain ⟨s₂, newest₂, others₂, hs₂, h₂, hspace₂⟩ := ih h₁ hspace₁
    refine ⟨s₂, newest₂, others₂, ?_, ?_, hspace₂⟩
    · rw [Session.writePieces, hs₁, bind_some, hs₂]
    · rw [flatten_cons, ← append_assoc]
      exact h₂

theorem cleared_contents (dir : Dir) {x : Name}
    (hx : x.take kCallSessionLogPrefix.length = kCallSessionLogPrefix) :
    ((getFilesWithPrefix dir kCallSessionLogPrefix).foldl Directory.remove dir).contents x =
      none := by
  rw [Directory.contents_foldl_remove]
  by_cases hmem : x ∈ getFilesWithPrefix dir kCallSessionLogPrefix
  · rw [if_pos hmem]
  · rw [if_neg hmem]
    simp only [getFilesWithPrefix, mem_filter, dir.mem_names, hx, decide_true, and_true,
      Decidable.not_not] at hmem
    exact hmem

theorem openStream_spec (hM : Budget budget) (dir : Dir) :
    ∃ s, Session.openStream ⟨.new budget, dir⟩ = some s ∧ Holds budget [] [] [] s ∧
      0 < s.stream.maxFileSize := by
  have hhalf : 0 < budget / 2 := by
    have hle := hM.atLeast
    omega
  refine ⟨⟨{ new budget with isOpen := true },
    ((getFilesWithPrefix dir kCallSessionLogPrefix).foldl Directory.remove dir).put
      (fileName budget 0) []⟩, ?_, ?_, hhalf⟩
  · have hget := new_fileNames budget (Nat.zero_le _)
    simp only [Session.openStream, Session.openCurrentFile, Session.closeCurrentFile]
    rw [if_neg (by exact Bool.false_ne_true), hget]
    rfl
  · constructor
    case layout => exact .beginning (Nat.zero_le _)
    case contents =>
      intro i hi
      rw [Directory.contents_put]
      cases i with
      | zero => rw [if_pos rfl, getElem?_cons_zero]
      | succ i =>
        rw [if_neg (fileName_ne hM hi (Nat.zero_le _) (Nat.succ_ne_zero i)),
          cleared_contents dir (fileName_hasPrefix budget _)]
        rfl
    case only =>
      intro x hx hne
      rw [Directory.contents_put, if_neg (hne 0 (Nat.zero_le _))]
      exact cleared_contents dir hx
    case fileNames => rfl
    case total => rfl
    case isOpen => rfl
    case maxFileSize => rfl
    case rotationIndex =>
      have htwo := two_le_numFiles budget
      show getNumRotatingLogFiles budget + 1 - 1 = victim (getNumRotatingLogFiles budget) 0
      rw [victim, if_pos (by omega), Nat.add_sub_cancel]
    case currentBytesWritten => rfl

end Steps

/-! ### What a reader gets -/

theorem readAll_sizeOf (dir : Dir) (names : List Name)
    (hexist : ∀ x ∈ names, dir.contents x ≠ none) :
    readAll dir names (dir.sizeOf names) = names.flatMap fun x => (dir.contents x).getD [] := by
  induction names with
  | nil => rfl
  | cons x names ih =>
    rw [forall_mem_cons] at hexist
    cases hx : dir.contents x with
    | none => exact absurd hx hexist.1
    | some bytes =>
      have hsize : dir.sizeOf (x :: names) = bytes.length + dir.sizeOf names := by
        simp [Directory.sizeOf, hx]
      rw [hsize, readAll, flatMap_cons, ← ih hexist.2, hx, getD_some]
      by_cases hpos : 0 < bytes.length + dir.sizeOf names
      · have htake : bytes.take (bytes.length + dir.sizeOf names) = bytes :=
          take_of_length_le (Nat.le_add_right _ _)
        rw [if_pos hpos]
        dsimp only
        rw [htake, Nat.add_sub_cancel_left]
      · have hbytes : bytes = [] := length_eq_zero_iff.mp (by omega)
        have hrest : dir.sizeOf names = 0 := by omega
        rw [hbytes, hrest]
        cases names with
        | nil => rfl
        | cons y names => rfl

section Reader

variable {budget : Nat} {written newest : Bytes} {others : List Bytes} {s : Session}

/-- The files in use, oldest first. -/
def usedNames (budget : Nat) (files : List Bytes) : List Name :=
  (List.range files.length).reverse.map (fileName budget)

theorem usedNames_pairwise (hM : Budget budget) (h : Holds budget written newest others s) :
    (usedNames budget (newest :: others)).Pairwise fun a b => b < a := by
  rw [usedNames, pairwise_map, pairwise_reverse]
  apply (pairwise_lt_range).imp_of_mem
  intro i j hi hj hij
  have hlen := h.layout.length_segments_le
  rw [mem_range] at hj
  exact fileName_lt hM hij (by omega)

theorem readerFileNames_eq (hM : Budget budget) (h : Holds budget written newest others s) :
    readerFileNames s.dir kCallSessionLogPrefix = usedNames budget (newest :: others) := by
  have hsorted := usedNames_pairwise hM h
  have hnodup : (usedNames budget (newest :: others)).Nodup := by
    apply hsorted.imp
    rintro a _ hlt rfl
    exact List.lt_irrefl _ hlt
  have hlen := h.layout.length_segments_le
  have hmem : ∀ x, x ∈ getFilesWithPrefix s.dir kCallSessionLogPrefix ↔
      x ∈ usedNames budget (newest :: others) := by
    intro x
    simp only [getFilesWithPrefix, List.mem_filter, Directory.mem_names, decide_eq_true_eq,
      usedNames, List.mem_map, List.mem_reverse, List.mem_range]
    constructor
    · intro hx
      by_contra hnone
      apply hx.1
      by_cases hname : ∃ i, i ≤ getNumRotatingLogFiles budget ∧ x = fileName budget i
      · obtain ⟨i, hi, rfl⟩ := hname
        rw [h.contents i hi, List.getElem?_eq_none_iff]
        by_contra hlt
        exact hnone ⟨i, by omega, rfl⟩
      · exact h.only x hx.2 fun i hi heq => hname ⟨i, hi, heq⟩
    · intro hx
      obtain ⟨i, hi, rfl⟩ := hx
      refine ⟨?_, fileName_hasPrefix budget i⟩
      rw [h.contents i (by omega), List.getElem?_eq_getElem hi]
      exact Option.some_ne_none _
  have hperm : (getFilesWithPrefix s.dir kCallSessionLogPrefix).Perm
      (usedNames budget (newest :: others)) :=
    (List.perm_ext_iff_of_nodup (s.dir.nodup.filter _) hnodup).mpr hmem
  have htotal : Std.Total fun a b : Name => ¬ a < b := ⟨fun a b => List.le_total b a⟩
  apply List.Perm.eq_of_pairwise
  · intro a b _ _ hab hba
    exact List.le_antisymm hba hab
  · exact List.pairwise_insertionSort (fun a b : Name => ¬ a < b) _
  · exact hsorted.imp List.le_of_lt
  · exact (List.perm_insertionSort _ _).trans hperm

theorem contents_usedNames (h : Holds budget written newest others s) :
    (usedNames budget (newest :: others)).flatMap (fun x => (s.dir.contents x).getD []) =
      (newest :: others).reverse.flatten := by
  have hlen := h.layout.length_segments_le
  have hmap : (range (newest :: others).length).map
      (fun i => (s.dir.contents (fileName budget i)).getD []) = newest :: others := by
    apply ext_getElem
    · simp
    · intro i hi hi'
      rw [getElem_map, getElem_range, h.contents i (by omega), getElem?_eq_getElem hi', getD_some]
  rw [usedNames, flatMap_map, flatMap_def, map_reverse, hmap]

theorem readSession_of_holds (hM : Budget budget) (h : Holds budget written newest others s) :
    readSession s.dir = (newest :: others).reverse.flatten := by
  rw [readSession, readerFileNames_eq hM h, getSize, readAll_sizeOf, contents_usedNames h]
  intro x hx
  rw [← readerFileNames_eq hM h, readerFileNames, mem_insertionSort, getFilesWithPrefix,
    mem_filter, Directory.mem_names] at hx
  exact hx.1

theorem getSize_of_holds (hM : Budget budget) (h : Holds budget written newest others s) :
    getSize s.dir (readerFileNames s.dir kCallSessionLogPrefix) ≤ budget := by
  have hlength : ∀ names : List Name, s.dir.sizeOf names =
      (names.flatMap fun x => (s.dir.contents x).getD []).length := by
    intro names
    rw [length_flatMap]
    rfl
  have hle := h.layout.length_le
  have hhalf := rotating_le_half budget
  rw [readerFileNames_eq hM h, getSize, hlength, contents_usedNames h, length_flatten,
    map_reverse, sum_reverse, ← length_flatten]
  omega

end Reader

/-- **The call-session log.**  For every budget and every way of cutting what is written
into pieces, the session is defined, and a reader gets the first half of the budget
followed by a suffix of the rest; that suffix is all of the rest while less than
`n * size` bytes of it were written, and else at least `(n - 1) * size` bytes.  The files
never hold more than the budget, also not inside `Write` before the rotation. -/
theorem callSession_keeps_beginning_and_end (budget : Nat) (hbudget : 4 ≤ budget)
    (hsize_t : budget < 2 ^ 64) (dir : Dir) (pieces : List Bytes) :
    ∃ s, callSession budget dir pieces = some s ∧
      (∃ tail, readSession s.dir = pieces.flatten.take (budget / 2) ++ tail ∧
        tail <:+ pieces.flatten.drop (budget / 2) ∧
        ((pieces.flatten.drop (budget / 2)).length ≤
            getNumRotatingLogFiles budget * getRotatingLogSize budget - 1 →
          tail = pieces.flatten.drop (budget / 2)) ∧
        (getNumRotatingLogFiles budget * getRotatingLogSize budget ≤
            (pieces.flatten.drop (budget / 2)).length →
          (getNumRotatingLogFiles budget - 1) * getRotatingLogSize budget ≤ tail.length)) ∧
      getSize s.dir (readerFileNames s.dir kCallSessionLogPrefix) ≤ budget ∧
      ∀ data : Bytes, ∃ s', s.writeFile (data.take
          (min data.length (s.stream.maxFileSize - s.stream.currentBytesWritten))) = some s' ∧
        getSize s'.dir (readerFileNames s'.dir kCallSessionLogPrefix) ≤ budget := by
  have hM : Budget budget := ⟨hbudget, hsize_t⟩
  obtain ⟨s₀, hs₀, h₀, hspace₀⟩ := openStream_spec hM dir
  obtain ⟨s, newest, others, hs, h, hspace⟩ := writePieces_spec hM pieces h₀ hspace₀
  rw [nil_append] at h
  have hpos : 0 < getNumRotatingLogFiles budget * getRotatingLogSize budget := by
    have htwo := two_le_numFiles budget
    exact Nat.mul_pos (by omega) (rotatingLogSize_pos hbudget)
  refine ⟨s, ?_, ?_, getSize_of_holds hM h, ?_⟩
  · rw [callSession, hs₀, bind_some, hs]
  · rw [readSession_of_holds hM h]
    obtain ⟨tail, htail, hsuffix, hall, hmost⟩ := h.layout.reads
    exact ⟨tail, htail, hsuffix, fun hle => hall (by omega), hmost⟩
  · intro data
    have hroom : newest.length + (data.take
        (min data.length (s.stream.maxFileSize - s.stream.currentBytesWritten))).length ≤
        s.stream.maxFileSize := by
      rw [length_take, h.currentBytesWritten]
      omega
    obtain ⟨s', hs', h', -⟩ := writeFile_spec hM h hroom
    exact ⟨s', hs', getSize_of_holds hM h'⟩

/-- A budget of nine bytes: four at the beginning, two files of two bytes. -/
theorem callSession_nine_bytes :
    ∃ s, callSession 9 ⟨[], List.nodup_nil⟩ [[1, 2, 3], [], [4, 5, 6, 7, 8, 9, 10, 11]] = some s ∧
      ∃ tail, readSession s.dir = [1, 2, 3, 4] ++ tail ∧ tail <:+ [5, 6, 7, 8, 9, 10, 11] := by
  obtain ⟨s, hs, htail, -⟩ := callSession_keeps_beginning_and_end 9 (by decide) (by decide)
    ⟨[], nodup_nil⟩ [[1, 2, 3], [], [4, 5, 6, 7, 8, 9, 10, 11]]
  obtain ⟨tail, hread, hsuffix, -⟩ := htail
  exact ⟨s, hs, tail, hread, hsuffix⟩

example : (callSession 9 ⟨[], List.nodup_nil⟩
    [[1, 2, 3], [], [4, 5, 6, 7, 8, 9, 10, 11]]).map (fun s => readSession s.dir) =
      some [1, 2, 3, 4, 9, 10, 11] := by
  decide +kernel

end WebrtcCore.Ports.CallSessionLog
