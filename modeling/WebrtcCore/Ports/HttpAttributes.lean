import Mathlib.Data.UInt

/-!
# Attributes of HTTP headers

Port of `HttpParseAttributes` and `quote` (`rtc_base/http_common.cc`).  The data is a list of
bytes, and the functions take what is left from `pos` on.
-/

namespace WebrtcCore.Ports.HttpAttributes

open List

/-- A name and a value. -/
abbrev HttpAttribute := List UInt8 × List UInt8

/-- In the C locale. -/
def isspace (c : UInt8) : Bool := c = 32 || (9 ≤ c && c ≤ 13)

def kEquals : UInt8 := '='.toUInt8
def kComma : UInt8 := ','.toUInt8
def kQuote : UInt8 := '"'.toUInt8
def kBackslash : UInt8 := '\\'.toUInt8

def isEndOfAttributeName : List UInt8 → Bool
  | [] => true
  | c :: rest => isspace c ||
    c = kEquals && rest.head?.any fun next => !isspace next && next ≠ kEquals

def readName : List UInt8 → List UInt8 × List UInt8
  | [] => ([], [])
  | c :: rest =>
    if isEndOfAttributeName (c :: rest) then ([], c :: rest)
    else (readName rest).map (c :: ·) id

/-- A quoted value, from behind the first quote. -/
def readQuoted : List UInt8 → List UInt8 × List UInt8
  | [] => ([], [])
  | [c] => (if c = kQuote then [] else [c], [])
  | c :: next :: rest =>
    if c = kQuote then ([], next :: rest)
    else if c = kBackslash then (readQuoted rest).map (next :: ·) id
    else (readQuoted (next :: rest)).map (c :: ·) id

def inValue (c : UInt8) : Bool := !isspace c && c ≠ kComma

def readValue : List UInt8 → List UInt8 × List UInt8
  | [] => ([], [])
  | c :: rest =>
    if c = kEquals then
      if rest.head? = some kQuote then readQuoted rest.tail
      else (rest.takeWhile inValue, rest.dropWhile inValue)
    else ([], c :: rest)

/-- An attribute, and what is left behind the comma. -/
def readAttribute (data : List UInt8) : HttpAttribute × List UInt8 :=
  let name := readName data
  let value := readValue name.2
  ((name.1, value.1), if value.2.head? = some kComma then value.2.tail else value.2)

def escape (c : UInt8) : List UInt8 := if c = kQuote ∨ c = kBackslash then [kBackslash, c] else [c]

def quote (str : List UInt8) : List UInt8 := kQuote :: str.flatMap escape ++ [kQuote]

/-! ## Reading what was quoted -/

theorem readName_append {name : List UInt8} (h : ∀ c ∈ name, ¬isspace c ∧ c ≠ kEquals)
    (rest : List UInt8) :
    readName (name ++ kEquals :: kQuote :: rest) = (name, kEquals :: kQuote :: rest) := by
  induction name with
  | nil => rfl
  | cons c name ih =>
    rw [forall_mem_cons] at h
    rw [cons_append, readName, if_neg (by simp [isEndOfAttributeName, h.1]), ih h.2]
    rfl

theorem readQuoted_escaped (str rest : List UInt8) :
    readQuoted (str.flatMap escape ++ kQuote :: rest) = (str, rest) := by
  induction str with
  | nil => cases rest <;> rfl
  | cons c str ih =>
    rw [flatMap_cons, append_assoc, escape]
    split
    · rw [cons_append, cons_append, nil_append, readQuoted, ih]
      rfl
    · rename_i hc
      rw [not_or] at hc
      -- another byte follows, so `c` is not the last
      obtain ⟨next, text, htext⟩ := exists_cons_of_ne_nil
        (show str.flatMap escape ++ kQuote :: rest ≠ [] by simp)
      rw [htext] at ih ⊢
      rw [singleton_append, readQuoted, if_neg hc.1, if_neg hc.2, ih]
      rfl

/-! ## Progress -/

theorem readName_append_eq (data : List UInt8) : (readName data).1 ++ (readName data).2 = data := by
  induction data with
  | nil => rfl
  | cons c rest ih =>
    rw [readName]
    split
    · rfl
    · exact congrArg (c :: ·) ih

theorem readQuoted_length (data : List UInt8) : (readQuoted data).2.length ≤ data.length := by
  fun_induction readQuoted data <;> simp_all <;> omega

theorem readValue_length (data : List UInt8) : (readValue data).2.length ≤ data.length ∧
    (data.head? = some kEquals → (readValue data).2.length < data.length) := by
  cases data with
  | nil => simp [readValue]
  | cons c rest =>
    rw [readValue]
    split
    · have hquoted := readQuoted_length rest.tail
      have hplain := (dropWhile_sublist inValue (l := rest)).length_le
      rw [length_tail] at hquoted
      split <;> simp <;> omega
    · simp_all

theorem readAttribute_length {c : UInt8} (hc : isspace c = false) (rest : List UInt8) :
    (readAttribute (c :: rest)).2.length < (c :: rest).length := by
  have hname := congrArg length (readName_append_eq (c :: rest))
  have hvalue := readValue_length (readName (c :: rest)).2
  have hless : (readValue (readName (c :: rest)).2).2.length < (c :: rest).length := by
    rw [length_append] at hname
    by_cases hend : isEndOfAttributeName (c :: rest)
    · have hequals : c = kEquals := by simp_all [isEndOfAttributeName]
      have hread : (readName (c :: rest)).2 = c :: rest := by rw [readName, if_pos hend]
      rw [hread] at hvalue ⊢
      exact hvalue.2 (congrArg some hequals)
    · have hpos : 0 < (readName (c :: rest)).1.length := by
        rw [readName, if_neg hend]
        exact Nat.succ_pos _
      omega
  simp only [readAttribute]
  split
  · rw [length_tail]
    omega
  · exact hless

/-- The attributes, and what is left of the data. -/
def httpParseAttributes (data : List UInt8) : List HttpAttribute × List UInt8 :=
  match hdata : data.dropWhile isspace with
  | [] => ([], [])
  | c :: rest =>
    let attr := readAttribute (c :: rest)
    (httpParseAttributes attr.2).map (attr.1 :: ·) id
termination_by data.length
decreasing_by
  have hskip := (dropWhile_sublist isspace (l := data)).length_le
  have hhead := head?_dropWhile_not isspace data
  rw [hdata] at hskip hhead
  exact Nat.lt_of_lt_of_le (readAttribute_length (by simpa using hhead) rest) hskip

theorem httpParseAttributes_ends (data : List UInt8) : (httpParseAttributes data).2 = [] := by
  fun_induction httpParseAttributes data with
  | case1 data hdata => rfl
  | case2 data c rest hdata attr ih => exact ih

/-- `name=quote(value)`. -/
def render (attr : HttpAttribute) : List UInt8 := attr.1 ++ kEquals :: quote attr.2

theorem readAttribute_render {attr : HttpAttribute} (h : ∀ c ∈ attr.1, ¬isspace c ∧ c ≠ kEquals)
    (rest : List UInt8) : readAttribute (render attr ++ rest) =
      (attr, if rest.head? = some kComma then rest.tail else rest) := by
  have hvalue : readValue (kEquals :: kQuote :: (attr.2.flatMap escape ++ kQuote :: rest)) =
      (attr.2, rest) := readQuoted_escaped attr.2 rest
  have htext : render attr ++ rest =
      attr.1 ++ kEquals :: kQuote :: (attr.2.flatMap escape ++ kQuote :: rest) := by
    simp [render, quote]
  rw [htext, readAttribute, readName_append h, hvalue]

theorem httpParseAttributes_congr {data data' : List UInt8}
    (h : data.dropWhile isspace = data'.dropWhile isspace) :
    httpParseAttributes data = httpParseAttributes data' := by
  rw [httpParseAttributes, httpParseAttributes]
  split <;> split <;> simp_all

theorem httpParseAttributes_render {attr : HttpAttribute}
    (h : ∀ c ∈ attr.1, ¬isspace c ∧ c ≠ kEquals) (rest : List UInt8) :
    httpParseAttributes (render attr ++ rest) =
      (httpParseAttributes (if rest.head? = some kComma then rest.tail else rest)).map
        (attr :: ·) id := by
  obtain ⟨c, text, htext, hc⟩ : ∃ c text, render attr ++ rest = c :: text ∧ ¬isspace c := by
    rcases attr with ⟨_ | ⟨c, name⟩, value⟩
    · exact ⟨kEquals, _, rfl, by decide⟩
    · exact ⟨c, _, rfl, (h c mem_cons_self).1⟩
  have hread := readAttribute_render h rest
  rw [httpParseAttributes]
  split <;> simp_all

/-- **Quoted attributes are read back**, and every input is read to its end. -/
theorem httpParseAttributes_roundTrip :
    (∀ attrs : List HttpAttribute, (∀ attr ∈ attrs, ∀ c ∈ attr.1, ¬isspace c ∧ c ≠ kEquals) →
      httpParseAttributes (intercalate [kComma, ' '.toUInt8] (attrs.map render)) = (attrs, [])) ∧
    ∀ data : List UInt8, (httpParseAttributes data).2 = [] := by
  refine ⟨fun attrs h => ?_, httpParseAttributes_ends⟩
  induction attrs with
  | nil => simp [httpParseAttributes]
  | cons attr attrs ih =>
    rw [forall_mem_cons] at h
    have hrest := ih h.2
    cases attrs with
    | nil =>
      have hone := httpParseAttributes_render h.1 []
      rw [append_nil] at hone
      rw [map_singleton, intercalate_singleton, hone]
      exact congrArg (Prod.map (attr :: ·) id) hrest
    | cons next attrs =>
      have hspace := httpParseAttributes_congr
        (dropWhile_cons_of_pos (l := intercalate [kComma, ' '.toUInt8] ((next :: attrs).map render))
          (show isspace ' '.toUInt8 by decide))
      rw [map_cons, map_cons, intercalate_cons_cons, append_assoc, httpParseAttributes_render h.1]
      exact congrArg (Prod.map (attr :: ·) id) (hspace.trans hrest)

/-- A value with a quote in it, and an empty value. -/
theorem httpParseAttributes_two :
    httpParseAttributes (intercalate [kComma, ' '.toUInt8] ([([0x61], [kQuote]), ([0x62], [])].map
      render)) = ([([0x61], [kQuote]), ([0x62], [])], []) :=
  httpParseAttributes_roundTrip.1 _ (by decide +kernel)

end WebrtcCore.Ports.HttpAttributes
