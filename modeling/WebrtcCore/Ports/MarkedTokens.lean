import WebrtcCore.Verified.Delimited

/-!
# Tokens with marked sections

Port of `tokenize` with a start and an end mark (`rtc_base/string_encode.cc`).  What stands in
front of a section goes to the tokenizer without its last character, which is a delimiter in
`a "b c"` and a part of a token in `a"b c"`.
-/

namespace WebrtcCore.Ports.MarkedTokens

open Verified Delimited List

variable {α : Type} [DecidableEq α] (delimiter startMark endMark : α)

/-- The loop of `tokenize`; `token` stands between `last` and `i`. -/
def tokenizeFrom : List α → List α → List (List α)
  | token, [] => if token ≠ [] then [token] else []
  | token, c :: source =>
    if c = delimiter then (if token ≠ [] then [token] else []) ++ tokenizeFrom [] source
    else tokenizeFrom (token ++ [c]) source

def tokenizeAppend (source : List α) (fields : List (List α)) : List (List α) :=
  fields ++ tokenizeFrom delimiter [] source

/-- The loop over the sections; `pre_mark` is `substr(0, start_pos - 1)`. -/
def tokenizeLoop : Nat → List α → List (List α) → Option (List (List α))
  | 0, _, _ => none
  | fuel + 1, remainSource, fields =>
    match cut startMark remainSource with
    | none => some (tokenizeAppend delimiter remainSource fields)
    | some (pre, rest) =>
      match cut endMark rest with
      | none => some (tokenizeAppend delimiter remainSource fields)
      | some (marked, post) =>
        tokenizeLoop fuel post (tokenizeAppend delimiter pre.dropLast fields ++ [marked])

/-- The fields of `tokenize` with marks. -/
def tokenize (source : List α) : Option (List (List α)) :=
  tokenizeLoop delimiter startMark endMark (source.length + 1) source []

/-- A source is cut into sections, each with the text in front of it, and a rest in which no end
mark follows the first start mark. -/
inductive Sections : List α → List (List α × List α) → List α → Prop
  | rest {last : List α} (h : ∀ pre rest, startMark ∉ pre → last = pre ++ startMark :: rest →
      endMark ∉ rest) : Sections last [] last
  | cons {pre marked post last : List α} {sections : List (List α × List α)}
      (hpre : startMark ∉ pre) (hmarked : endMark ∉ marked) (h : Sections post sections last) :
      Sections (pre ++ startMark :: (marked ++ endMark :: post)) ((pre, marked) :: sections) last

/-- The characters other than delimiters outside of sections and the marks of sections. -/
def kept (sections : List (List α × List α)) (last : List α) : List α :=
  sections.flatMap (fun p => p.1.filter (· ≠ delimiter) ++ p.2) ++ last.filter (· ≠ delimiter)

variable {delimiter startMark endMark} {source : List α}

theorem tokenizeFrom_flatten (token : List α) :
    (tokenizeFrom delimiter token source).flatten = token ++ source.filter (· ≠ delimiter) := by
  induction source generalizing token with
  | nil => cases token <;> simp [tokenizeFrom]
  | cons c source ih =>
    rw [tokenizeFrom]
    split
    · rename_i hc
      cases token <;> simp [ih, hc]
    · rename_i hc
      simp [ih, hc]

theorem tokenizeLoop_eq (delimiter : α) {fuel : Nat} (hfuel : source.length < fuel)
    (fields : List (List α)) :
    ∃ sections last, Sections startMark endMark source sections last ∧
      tokenizeLoop delimiter startMark endMark fuel source fields = some (fields ++
        (sections.flatMap (fun p => tokenizeFrom delimiter [] p.1.dropLast ++ [p.2]) ++
          tokenizeFrom delimiter [] last)) := by
  induction fuel generalizing source fields with
  | zero => omega
  | succ fuel ih =>
    unfold tokenizeLoop
    split
    · rename_i hcut
      refine ⟨[], source, .rest fun pre rest hpre hsource => ?_, rfl⟩
      cases hcut.symm.trans (cut_eq_some_iff.2 ⟨hpre, hsource⟩)
    · rename_i pre rest hcut
      split
      · rename_i hend
        refine ⟨[], source, .rest fun pre' rest' hpre hsource => ?_, rfl⟩
        cases hcut.symm.trans (cut_eq_some_iff.2 ⟨hpre, hsource⟩)
        exact cut_eq_none_iff.1 hend
      · rename_i marked post hend
        obtain ⟨hpre, rfl⟩ := cut_eq_some_iff.1 hcut
        obtain ⟨hmarked, rfl⟩ := cut_eq_some_iff.1 hend
        simp only [length_append, length_cons] at hfuel
        obtain ⟨sections, last, hsections, hloop⟩ :=
          ih (show post.length < fuel by omega)
            (tokenizeAppend delimiter pre.dropLast fields ++ [marked])
        refine ⟨(pre, marked) :: sections, last, .cons hpre hmarked hsections, ?_⟩
        rw [hloop]
        simp [tokenizeAppend]

theorem flatMap_eq_iff {α β : Type} {f g : β → List α} (h : ∀ b, (f b).Sublist (g b))
    (bs : List β) :
    (bs.flatMap f).Sublist (bs.flatMap g) ∧
      (bs.flatMap f = bs.flatMap g ↔ ∀ b ∈ bs, f b = g b) := by
  induction bs with
  | nil => simp
  | cons b bs ih =>
    rw [flatMap_cons, flatMap_cons, forall_mem_cons, ← ih.2]
    refine ⟨(h b).append ih.1, fun heq => ?_, fun ⟨hb, hbs⟩ => by rw [hb, hbs]⟩
    have hlen := congrArg length heq
    have hle := (h b).length_le
    have hrest := ih.1.length_le
    rw [length_append, length_append] at hlen
    have hb := (h b).eq_of_length (by omega)
    rw [hb] at heq
    exact ⟨hb, append_cancel_left heq⟩

theorem filter_dropLast_eq_iff (pre : List α) :
    pre.dropLast.filter (· ≠ delimiter) = pre.filter (· ≠ delimiter) ↔
      ∀ c ∈ pre.getLast?, c = delimiter := by
  rcases eq_nil_or_concat pre with rfl | ⟨pre, c, rfl⟩
  · simp
  · by_cases hc : c = delimiter <;> simp

/-- **Nothing but delimiters and marks is lost** if and only if each section stands at the start
or after a delimiter: the fields, one after the other, are the characters that are kept. -/
theorem tokenize_conserves_iff (delimiter startMark endMark : α) (source : List α) :
    ∃ sections last fields, Sections startMark endMark source sections last ∧
      tokenize delimiter startMark endMark source = some fields ∧
      (fields.flatten = kept delimiter sections last ↔
        ∀ p ∈ sections, ∀ c ∈ p.1.getLast?, c = delimiter) := by
  obtain ⟨sections, last, hsections, hloop⟩ :=
    tokenizeLoop_eq delimiter (Nat.lt_succ_self source.length) []
  refine ⟨sections, last, _, hsections, hloop, ?_⟩
  clear hsections hloop
  have hflatten : (sections.flatMap fun p =>
      tokenizeFrom delimiter [] p.1.dropLast ++ [p.2]).flatten =
      sections.flatMap fun p => p.1.dropLast.filter (· ≠ delimiter) ++ p.2 := by
    induction sections with
    | nil => rfl
    | cons p sections ih =>
      rw [flatMap_cons, flatten_append, ih, flatten_append, tokenizeFrom_flatten]
      simp
  rw [nil_append, flatten_append, hflatten, tokenizeFrom_flatten, nil_append, kept,
    append_left_inj, (flatMap_eq_iff (fun p => ?_) sections).2]
  · simp only [append_left_inj, filter_dropLast_eq_iff]
  · exact ((dropLast_sublist p.1).filter _).append (Sublist.refl p.2)

/-- The `b` in front of a section that no delimiter sets off is lost. -/
theorem tokenize_loses : (tokenize ' ' '<' '>' "ab<c>".toList).map flatten = some ['a', 'c'] ∧
    Sections '<' '>' "ab<c>".toList [(['a', 'b'], ['c'])] [] ∧
    kept ' ' [(['a', 'b'], ['c'])] [] = ['a', 'b', 'c'] :=
  ⟨by decide, .cons (by decide : '<' ∉ ['a', 'b']) (by decide : '>' ∉ ['c']) (.rest (by simp)),
    by decide⟩

end WebrtcCore.Ports.MarkedTokens
