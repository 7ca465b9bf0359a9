import TerraformPins.Proofs.Text
import TerraformPins.Wildcard

/-!
# The language of a wildcard pattern

A pattern describes a name if the name arises from it by putting a run of characters in the place of
each star. The matcher never goes back: it puts each literal between two stars at its first
occurrence. This loses nothing, because a literal that ends earlier leaves more room to the literals
behind it, and it accepts nothing too much, because the first and the last literal keep their places
at the two ends.

## Main definitions

* `Describes` — the names that a pattern describes
* `Fits` — the same for the literals between the stars
* `InOrder` — literals behind one another in a text, the last one at its end

## Main results

* `describes_iff_fits` — cutting a pattern at its stars keeps its language
* `inOrder_cons_iff` — the first occurrence of a literal is as good as any other
* `accepts_iff_describes` — the matcher decides the language
-/

namespace TerraformPins

namespace Wildcard

/-- The names that a pattern describes: a star stands for any run of characters and every other
character for itself. -/
inductive Describes : List Char → List Char → Prop where
  | done : Describes [] []
  | star (run : List Char) {pattern name : List Char} (rest : Describes pattern name) :
      Describes ('*' :: pattern) (run ++ name)
  | char {c : Char} (plain : c ≠ '*') {pattern name : List Char} (rest : Describes pattern name) :
      Describes (c :: pattern) (c :: name)

/-- The names that consist of the given literals with any runs of characters between them. -/
def Fits : List (List Char) → List Char → Prop
  | [], _ => False
  | [literal], name => name = literal
  | literal :: next :: more, name =>
    ∃ run rest, name = literal ++ (run ++ rest) ∧ Fits (next :: more) rest

/-- A text in which `middle` stand behind one another and `last` stands behind them at the end. -/
def InOrder (last : List Char) : List (List Char) → List Char → Prop
  | [], text => last <:+ text
  | literal :: more, text => ∃ run rest, text = run ++ (literal ++ rest) ∧ InOrder last more rest

variable {last name text : List Char} {middle : List (List Char)}

private theorem fits_cons_cons (c : Char) (literal : List Char) (more : List (List Char)) :
    Fits ((c :: literal) :: more) name ↔ ∃ rest, name = c :: rest ∧
      Fits (literal :: more) rest := by
  cases more with
  | nil => simp [Fits]
  | cons next more =>
    constructor
    · rintro ⟨run, rest, rfl, fits⟩
      exact ⟨_, rfl, run, rest, rfl, fits⟩
    · rintro ⟨_, rfl, run, rest, rfl, fits⟩
      exact ⟨run, rest, rfl, fits⟩

private theorem describes_star_iff (pattern : List Char) :
    Describes ('*' :: pattern) name ↔ ∃ run rest, name = run ++ rest ∧ Describes pattern rest := by
  constructor
  · intro h
    cases h with
    | star run rest => exact ⟨run, _, rfl, rest⟩
    | char plain => exact absurd rfl plain
  · rintro ⟨run, rest, rfl, h⟩
    exact .star run h

private theorem describes_char_iff {c : Char} (plain : c ≠ '*') (pattern : List Char) :
    Describes (c :: pattern) name ↔ ∃ rest, name = c :: rest ∧ Describes pattern rest := by
  constructor
  · intro h
    cases h with
    | star => exact absurd rfl plain
    | char _ rest => exact ⟨_, rfl, rest⟩
  · rintro ⟨rest, rfl, h⟩
    exact .char plain h

/-- A pattern with one more star still describes what it described; the star stands for nothing
there. -/
theorem Describes.insert_star (front : List Char) {back : List Char}
    (h : Describes (front ++ back) name) : Describes (front ++ '*' :: back) name := by
  induction front generalizing name with
  | nil => exact .star [] h
  | cons c front ih =>
    rw [List.cons_append] at h ⊢
    cases h with
    | star run rest => exact .star run (ih rest)
    | char plain rest => exact .char plain (ih rest)

/-- A pattern describes the names that its literals fit. -/
theorem describes_iff_fits (pattern name : List Char) :
    Describes pattern name ↔ Fits (splitAll (· == '*') pattern) name := by
  induction pattern generalizing name with
  | nil =>
    constructor
    · rintro ⟨⟩
      rfl
    · rintro rfl
      exact .done
  | cons c pattern ih =>
    obtain ⟨literal, more, pieces⟩ :=
      List.exists_cons_of_ne_nil (splitAll_ne_nil (· == '*') pattern)
    unfold splitAll
    rw [pieces] at ih ⊢
    by_cases star : c = '*'
    · subst star
      simp only [describes_star_iff, ih, beq_self_eq_true, if_true, Fits, List.nil_append]
    · simp only [describes_char_iff star, ih, beq_iff_eq, star, if_false, fits_cons_cons]

theorem InOrder.append (run : List Char) (h : InOrder last middle text) :
    InOrder last middle (run ++ text) := by
  cases middle with
  | nil => exact h.trans (List.suffix_append run text)
  | cons literal more =>
    obtain ⟨before, rest, rfl, more⟩ := h
    exact ⟨run ++ before, rest, by simp, more⟩

theorem InOrder.suffix (h : InOrder last middle text) : last <:+ text := by
  induction middle generalizing text with
  | nil => exact h
  | cons literal more ih =>
    obtain ⟨run, rest, rfl, h⟩ := h
    exact (ih h).trans ((List.suffix_append literal rest).trans (List.suffix_append run _))

/-- The literals of a pattern fit a name if the first one begins it and the others follow in
order. -/
theorem fits_iff_inOrder (first : List Char) :
    Fits (first :: (middle ++ [last])) name ↔
      ∃ rest, name = first ++ rest ∧ InOrder last middle rest := by
  induction middle generalizing first name with
  | nil =>
    constructor
    · rintro ⟨run, rest, rfl, rfl⟩
      exact ⟨_, rfl, run, rfl⟩
    · rintro ⟨_, rfl, run, rfl⟩
      exact ⟨run, last, rfl, rfl⟩
  | cons literal more ih =>
    simp only [List.cons_append, Fits, ih, InOrder]
    constructor
    · rintro ⟨run, _, rfl, rest, rfl, inOrder⟩
      exact ⟨_, rfl, run, rest, rfl, inOrder⟩
    · rintro ⟨_, rfl, run, rest, rfl, inOrder⟩
      exact ⟨run, _, rfl, rest, rfl, inOrder⟩

/-- `findFirst?` finds an occurrence. -/
theorem exists_of_findFirst? {literal : List Char} {k : Nat}
    (h : findFirst? literal text = some k) :
    ∃ run, run.length = k ∧ text = run ++ (literal ++ text.drop (k + literal.length)) := by
  induction text generalizing k with
  | nil =>
    cases literal with
    | nil => exact ⟨[], by simpa [findFirst?] using h, by simp⟩
    | cons => simp [findFirst?] at h
  | cons c rest ih =>
    unfold findFirst? at h
    split at h
    case isTrue here =>
      obtain ⟨behind, eq⟩ := List.isPrefixOf_iff_prefix.mp here
      obtain rfl := Option.some.inj h
      exact ⟨[], rfl, by simp [← eq]⟩
    case isFalse =>
      obtain ⟨j, found, rfl⟩ := Option.map_eq_some_iff.mp h
      obtain ⟨run, rfl, eq⟩ := ih found
      refine ⟨c :: run, rfl, ?_⟩
      rw [show run.length + 1 + literal.length = (run.length + literal.length) + 1 by omega]
      simpa using eq

/-- No occurrence of a literal is in front of the one that `findFirst?` finds. -/
theorem exists_findFirst? (run literal rest : List Char) :
    ∃ k ≤ run.length, findFirst? literal (run ++ (literal ++ rest)) = some k := by
  induction run with
  | nil =>
    refine ⟨0, Nat.le_refl 0, ?_⟩
    cases literal with
    | nil => cases rest <;> simp [findFirst?]
    | cons c literal =>
      have here : (c :: literal).isPrefixOf (c :: (literal ++ rest)) :=
        List.isPrefixOf_iff_prefix.mpr (List.prefix_append (c :: literal) rest)
      simp only [List.nil_append, List.cons_append, findFirst?]
      rw [if_pos here]
  | cons c run ih =>
    obtain ⟨k, bound, found⟩ := ih
    simp only [List.cons_append, findFirst?, found]
    split
    · exact ⟨0, Nat.zero_le _, rfl⟩
    · exact ⟨k + 1, by simpa using bound, rfl⟩

/-- Placing a literal at its first occurrence is no restriction: wherever else it stands, what
follows it there also follows it here. -/
theorem inOrder_cons_iff (literal : List Char) :
    InOrder last (literal :: middle) text ↔
      ∃ k, findFirst? literal text = some k ∧
        InOrder last middle (text.drop (k + literal.length)) := by
  constructor
  · rintro ⟨run, rest, rfl, inOrder⟩
    obtain ⟨k, bound, found⟩ := exists_findFirst? run literal rest
    refine ⟨k, found, ?_⟩
    have behind : (run ++ (literal ++ rest)).drop (k + literal.length) =
        (run ++ literal).drop (k + literal.length) ++ rest := by
      rw [← List.append_assoc, List.drop_append_of_le_length (by simp; omega)]
    rw [behind]
    exact inOrder.append _
  · rintro ⟨k, found, inOrder⟩
    obtain ⟨run, -, eq⟩ := exists_of_findFirst? found
    exact ⟨run, _, eq, inOrder⟩

/-- An empty literal stands everywhere. -/
theorem inOrder_filter_iff :
    InOrder last (middle.filter (!·.isEmpty)) text ↔ InOrder last middle text := by
  induction middle generalizing text with
  | nil => rfl
  | cons literal more ih =>
    cases literal with
    | nil =>
      simp only [List.isEmpty_nil, Bool.not_true, Bool.false_eq_true, not_false_iff,
        List.filter_cons_of_neg, ih, InOrder, List.nil_append]
      constructor
      · exact fun h => ⟨[], text, rfl, h⟩
      · rintro ⟨run, rest, rfl, h⟩
        exact h.append run
    | cons c literal => simp [InOrder, ih]

/-- The search from left to right succeeds if the literals stand in order behind `position`. The
invariant is that the position never passes the beginning of the last literal. -/
theorem foldlM_advance?_isSome_iff (suffix : last <:+ name) {position : Nat}
    (bound : position ≤ name.length - last.length) :
    (middle.foldlM (advance? name (name.length - last.length)) position).isSome ↔
      InOrder last middle (name.drop position) := by
  have short : last.length ≤ name.length := suffix.length_le
  induction middle generalizing position with
  | nil =>
    simp only [List.foldlM_nil, Option.pure_def, Option.isSome_some, true_iff, InOrder]
    exact List.suffix_of_suffix_length_le suffix (List.drop_suffix _ _) (by simp; omega)
  | cons literal more ih =>
    rw [inOrder_cons_iff, List.foldlM_cons]
    cases found : findFirst? literal (name.drop position) with
    | none => simp [advance?, found]
    | some k =>
      simp only [advance?, found, Option.bind_eq_bind, Option.bind_some, Option.some.injEq,
        exists_eq_left', List.drop_drop]
      rw [Nat.add_assoc position k]
      by_cases inside : position + (k + literal.length) ≤ name.length - last.length
      · simp only [inside, if_true, Option.bind_some]
        exact ih inside
      · simp only [inside, if_false, Option.bind_none, Option.isSome_none, Bool.false_eq_true,
          false_iff]
        -- The first place of the literal is already too far to the right, and so are all others.
        intro inOrder
        have tail := inOrder.suffix.length_le
        simp only [List.length_drop] at tail
        obtain ⟨run, rfl, eq⟩ := exists_of_findFirst? found
        have room := congrArg List.length eq
        simp only [List.length_append, List.length_drop] at room
        omega

/-- The search by pieces decides whether the pieces fit. -/
theorem acceptsPieces_iff_fits (first : List Char) :
    acceptsPieces first middle last name ↔ Fits (first :: (middle ++ [last])) name := by
  rw [fits_iff_inOrder]
  simp only [acceptsPieces, Bool.and_eq_true, decide_eq_true_eq, List.isPrefixOf_iff_prefix,
    List.isSuffixOf_iff_suffix]
  constructor
  · rintro ⟨⟨⟨⟨rest, rfl⟩, suffix⟩, room⟩, found⟩
    refine ⟨rest, rfl, ?_⟩
    have inOrder := (foldlM_advance?_isSome_iff suffix (Nat.le_sub_of_add_le room)).mp found
    rw [List.drop_left] at inOrder
    exact inOrder_filter_iff.mp inOrder
  · rintro ⟨rest, rfl, inOrder⟩
    have suffix : last <:+ first ++ rest := inOrder.suffix.trans (List.suffix_append _ _)
    have room := inOrder.suffix.length_le
    have room : first.length + last.length ≤ (first ++ rest).length := by simp; omega
    refine ⟨⟨⟨List.prefix_append _ _, suffix⟩, room⟩, ?_⟩
    rw [foldlM_advance?_isSome_iff suffix (Nat.le_sub_of_add_le room), List.drop_left]
    exact inOrder_filter_iff.mpr inOrder

theorem acceptsChars_iff_fits (pattern name : List Char) :
    acceptsChars pattern name ↔ Fits (splitAll (· == '*') pattern) name := by
  rw [acceptsChars]
  have joined := joinWith_splitAll '*' pattern
  cases pieces : splitAll (· == '*') pattern with
  | nil => exact absurd pieces (splitAll_ne_nil _ _)
  | cons first rest =>
    cases rest with
    | nil =>
      rw [pieces] at joined
      simp only [joinWith] at joined
      simp [Fits, joined]
    | cons next more =>
      simp only
      rw [acceptsPieces_iff_fits, List.dropLast_concat_getLast]

/-- The matcher accepts a name if and only if the name arises from the pattern by putting some run
of characters in the place of each star. -/
theorem accepts_iff_describes (pattern name : String) :
    accepts pattern name ↔ Describes pattern.toList name.toList := by
  rw [describes_iff_fits, accepts]
  exact acceptsChars_iff_fits pattern.toList name.toList

/-- A name is accepted if one of the patterns describes it. -/
theorem acceptsAny_of_describes {patterns : List String} {name : String}
    (described : ∃ pattern ∈ patterns, Describes pattern.toList name.toList) :
    acceptsAny patterns name = true := by
  obtain ⟨pattern, member, describes⟩ := described
  rw [describes_iff_fits] at describes
  exact List.any_eq_true.mpr ⟨pattern, member, (acceptsChars_iff_fits _ _).mpr describes⟩

end Wildcard

end TerraformPins
