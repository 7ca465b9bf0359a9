import Mathlib.Data.List.Infix
import TerraformPins.Proofs.Wildcard

/-!
# The search for a wildcard pattern stays inside the name

The matcher takes a length from another one, goes on behind a position in a name, and looks at runs
of neighbouring characters. Each of these means something within bounds only, and no bound is
checked where it is used. They follow from what holds throughout the search: the position is not in
front of the end of the first literal, and it does not pass the beginning of the last one.

To say this the matcher is written with operations that name the bound they leave. This careful
matcher is never at fault, and it is the matcher.

## Main definitions

* `Fault` — the bounds that can be left
* `Careful.accepts` — the matcher whose operations say when they leave their bounds
* `Turn` — a turn of the search

## Main results

* `foldlM_advance?_bounds` — between which bounds the position moves
* `Careful.find_eq` — the first occurrence of a literal among the runs of its length
* `Careful.accepts_eq` — the careful matcher is never at fault
* `accepts_inBounds` — no bound is left in any search
-/

namespace TerraformPins

namespace Wildcard

/-- The bounds that can be left. -/
inductive Fault where
  /-- A number is taken from a smaller one. -/
  | belowZero
  /-- A text is taken from a position behind its end. -/
  | behindEnd
  /-- A text is taken apart in runs of no characters. -/
  | emptyRun
  /-- A pattern with a star has no last literal besides the first one. -/
  | uncut
  deriving DecidableEq, Repr

namespace Careful

/-- `n` without `m`. -/
def minus (n m : Nat) : Except Fault Nat :=
  if m ≤ n then .ok (n - m) else .error .belowZero

/-- What stands behind `position` in a text. -/
def behind (text : List Char) (position : Nat) : Except Fault (List Char) :=
  if position ≤ text.length then .ok (text.drop position) else .error .behindEnd

/-- The runs of `n` neighbouring characters in a text, from left to right. -/
def runs (n : Nat) (text : List Char) : Except Fault (List (List Char)) :=
  if n = 0 then .error .emptyRun
  else .ok ((text.tails.filter (n ≤ ·.length)).map (·.take n))

/-- The number of characters in front of the first occurrence of `literal`. -/
def find (literal text : List Char) : Except Fault (Option Nat) :=
  if text.length < literal.length then .ok none
  else (runs literal.length text).map fun runs => runs.findIdx? (· == literal)

/-- The position behind the first occurrence of `literal` at or after `position`, if this is not
behind `limit`. -/
def advance (name : List Char) (limit position : Nat) (literal : List Char) :
    Except Fault (Option Nat) := do
  let found ← find literal (← behind name position)
  return found.bind fun offset =>
    let next := position + offset + literal.length
    if next ≤ limit then some next else none

/-- Whether the literals have their places, each behind the one before it. -/
def search (name : List Char) (limit : Nat) : Nat → List (List Char) → Except Fault Bool
  | _, [] => .ok true
  | position, literal :: more => do
    match ← advance name limit position literal with
    | none => return false
    | some next => search name limit next more

/-- Matching by the literals between the stars. -/
def acceptsPieces (first : List Char) (middle : List (List Char)) (last name : List Char) :
    Except Fault Bool :=
  if first.isPrefixOf name && last.isSuffixOf name then
    if name.length < first.length + last.length then .ok false
    else do search name (← minus name.length last.length) first.length (middle.filter (!·.isEmpty))
  else .ok false

/-- Whether a name is described by a pattern. -/
def accepts (pattern name : List Char) : Except Fault Bool :=
  if '*' ∈ pattern then
    match splitAll (· == '*') pattern with
    | first :: next :: more =>
      acceptsPieces first (next :: more).dropLast
        ((next :: more).getLast (List.cons_ne_nil next more)) name
    | _ => .error .uncut
  else .ok (name == pattern)

end Careful

section Search

variable {name literal : List Char} {literals : List (List Char)} {limit start position next : Nat}

/-- A step of the search goes on and does not pass the limit. -/
theorem advance?_bounds (found : advance? name limit position literal = some next) :
    position + literal.length ≤ next ∧ next ≤ limit := by
  obtain ⟨offset, -, inside⟩ := Option.bind_eq_some_iff.mp found
  dsimp only at inside
  split at inside
  case isTrue bound =>
    obtain rfl := Option.some.inj inside
    exact ⟨by omega, bound⟩
  case isFalse => cases inside

/-- All positions of a search are between its start and the limit. -/
theorem foldlM_advance?_bounds (room : start ≤ limit)
    (reached : literals.foldlM (advance? name limit) start = some position) :
    start ≤ position ∧ position ≤ limit := by
  induction literals generalizing start with
  | nil =>
    obtain rfl := Option.some.inj reached
    exact ⟨Nat.le_refl _, room⟩
  | cons literal more ih =>
    rw [List.foldlM_cons] at reached
    obtain ⟨next, first, rest⟩ := Option.bind_eq_some_iff.mp reached
    obtain ⟨onward, inside⟩ := advance?_bounds first
    obtain ⟨lower, upper⟩ := ih inside rest
    exact ⟨by omega, upper⟩

/-- There is no place for a literal in a text that is shorter. -/
theorem findFirst?_of_length_lt {text : List Char} (short : text.length < literal.length) :
    findFirst? literal text = none := by
  cases found : findFirst? literal text with
  | none => rfl
  | some k =>
    obtain ⟨run, -, split⟩ := exists_of_findFirst? found
    have whole := congrArg List.length split
    simp only [List.length_append] at whole
    omega

namespace Careful

/-- The first occurrence of a literal is the first run of its length that is the literal. -/
theorem findFirst?_eq_findIdx? (filled : literal ≠ []) (text : List Char) :
    findFirst? literal text =
      ((text.tails.filter (literal.length ≤ ·.length)).map (·.take literal.length)).findIdx?
        (· == literal) := by
  have long : literal.length ≠ 0 := fun none => filled (List.eq_nil_of_length_eq_zero none)
  induction text with
  | nil =>
    have short : ¬ literal.length ≤ 0 := by omega
    simp [findFirst?, filled, short]
  | cons c rest ih =>
    -- A literal stands in front of a text exactly if it is the run that the text begins with.
    have here : literal.isPrefixOf (c :: rest) = true ↔
        (c :: rest).take literal.length = literal := by
      rw [List.isPrefixOf_iff_prefix, List.prefix_iff_eq_take, eq_comm]
    rw [List.tails_cons]
    by_cases room : literal.length ≤ (c :: rest).length
    · rw [List.filter_cons_of_pos (by simpa using room), List.map_cons, List.findIdx?_cons, ← ih,
        findFirst?]
      by_cases same : (c :: rest).take literal.length = literal
      · rw [if_pos (here.mpr same), if_pos (beq_iff_eq.mpr same)]
      · rw [if_neg (mt here.mp same), if_neg (mt beq_iff_eq.mp same)]
    · have later : rest.length < literal.length := by
        rw [List.length_cons] at room
        omega
      rw [List.filter_cons_of_neg (by simpa using room), ← ih, findFirst?_of_length_lt later,
        findFirst?_of_length_lt (Nat.lt_of_not_le room)]

/-- A literal that is not empty is found without a fault. -/
theorem find_eq (filled : literal ≠ []) (text : List Char) :
    find literal text = .ok (findFirst? literal text) := by
  have long : literal.length ≠ 0 := fun none => filled (List.eq_nil_of_length_eq_zero none)
  unfold find
  split
  case isTrue short => rw [findFirst?_of_length_lt short]
  case isFalse =>
    rw [runs, if_neg long, findFirst?_eq_findIdx? filled]
    rfl

/-- From a position in the name the search goes on without a fault. -/
theorem advance_eq (filled : literal ≠ []) (inside : position ≤ name.length) :
    advance name limit position literal = .ok (advance? name limit position literal) := by
  simp only [advance, behind, if_pos inside, bind, Except.bind, find_eq filled]
  rfl

/-- A search for literals that are not empty is never at fault, if it starts in front of a limit
that is in the name. -/
theorem search_eq (filled : ∀ literal ∈ literals, literal ≠ []) (room : start ≤ limit)
    (inside : limit ≤ name.length) :
    search name limit start literals = .ok
      (literals.foldlM (advance? name limit) start).isSome := by
  induction literals generalizing start with
  | nil => rfl
  | cons literal more ih =>
    obtain ⟨here, later⟩ := List.forall_mem_cons.mp filled
    rw [search, advance_eq here (Nat.le_trans room inside), List.foldlM_cons]
    cases found : advance? name limit start literal with
    | none => rfl
    | some next => exact ih later (advance?_bounds found).2

/-- The careful matcher by pieces is never at fault, and it is the matcher by pieces. -/
theorem acceptsPieces_eq (first : List Char) (middle : List (List Char)) (last name : List Char) :
    acceptsPieces first middle last name = .ok (Wildcard.acceptsPieces first middle last name) := by
  unfold acceptsPieces Wildcard.acceptsPieces
  cases ends : first.isPrefixOf name && last.isSuffixOf name with
  | false => simp
  | true =>
    by_cases short : name.length < first.length + last.length
    · have overlap : ¬ first.length + last.length ≤ name.length := Nat.not_le_of_lt short
      simp [short, overlap]
    · have room : first.length + last.length ≤ name.length := Nat.le_of_not_lt short
      have filled : ∀ literal ∈ middle.filter (!·.isEmpty), literal ≠ [] := by
        intro literal member
        simpa using (List.mem_filter.mp member).2
      have searched :=
        search_eq filled (Nat.le_sub_of_add_le room) (Nat.sub_le name.length last.length)
      have limit : minus name.length last.length = .ok (name.length - last.length) :=
        if_pos (by omega)
      simp [short, room, limit, bind, Except.bind, searched]

/-- The careful matcher is never at fault, and it is the matcher. -/
theorem accepts_eq (pattern name : List Char) :
    accepts pattern name = .ok (acceptsChars pattern name) := by
  unfold accepts acceptsChars
  split
  case isTrue star =>
    obtain ⟨first, next, more, pieces⟩ :=
      exists_splitAll_of_mem (p := (· == '*')) star (beq_self_eq_true _)
    rw [pieces]
    exact acceptsPieces_eq ..
  case isFalse plain => rw [splitAll_of_not_mem plain]

/-- A name that is shorter than both literals is refused before a length is taken from its own. -/
example : accepts ['a', 'b', '*', 'b'] ['a', 'b'] = .ok false := by decide

end Careful

end Search

/-- A turn of the search for a pattern in a name: the literals at the two ends have their places,
`literal` is the next one between them, and `position` is where its place is looked for. -/
inductive Turn (pattern name first last literal : List Char) (position : Nat) : Prop
  | mk (middle done later : List (List Char))
    (pieces : splitAll (· == '*') pattern = first :: (middle ++ [last]))
    (begins : first <+: name) (ends : last <:+ name)
    (room : first.length + last.length ≤ name.length)
    (literals : middle.filter (!·.isEmpty) = done ++ literal :: later)
    (reached : done.foldlM (advance? name (name.length - last.length)) first.length = some position)

/-- The bounds in a turn of the search. -/
theorem Turn.bounds {pattern name first last literal : List Char} {position : Nat}
    (turn : Turn pattern name first last literal position) :
    (first.length ≤ position ∧ position ≤ name.length - last.length) ∧ last.length ≤ name.length ∧
      literal ≠ [] := by
  obtain ⟨middle, done, later, -, -, ends, room, literals, reached⟩ := turn
  refine ⟨foldlM_advance?_bounds (Nat.le_sub_of_add_le room) reached, ends.length_le, ?_⟩
  have member : literal ∈ middle.filter (!·.isEmpty) := by
    rw [literals]
    exact List.mem_append_right done List.mem_cons_self
  simpa using (List.mem_filter.mp member).2

/-- No search leaves its bounds.

* The matcher whose operations say when they leave their bounds is never at fault, and it says the
  same.
* A pattern with a star is cut into a first and a last literal and those between them.
* In each turn of a search the position is not in front of the end of the first literal and not
  behind the beginning of the last one, the last one is not longer than the name, so that this is a
  place in the name, and the literal that is looked for is not empty. -/
theorem accepts_inBounds (pattern name : String) :
    Careful.accepts pattern.toList name.toList = .ok (accepts pattern name) ∧
    ('*' ∈ pattern.toList → ∃ first middle last,
      splitAll (· == '*') pattern.toList = first :: (middle ++ [last])) ∧
    ∀ first last literal position, Turn pattern.toList name.toList first last literal position →
      (first.length ≤ position ∧ position ≤ name.toList.length - last.length ∧
        name.toList.length - last.length ≤ name.toList.length) ∧
      last.length ≤ name.toList.length ∧ literal ≠ [] := by
  refine ⟨Careful.accepts_eq _ _, fun star => ?_, fun first last literal position turn => ?_⟩
  · obtain ⟨first, next, more, pieces⟩ :=
      exists_splitAll_of_mem (p := (· == '*')) star (beq_self_eq_true _)
    refine ⟨first, (next :: more).dropLast, (next :: more).getLast (by simp), ?_⟩
    rw [pieces, List.dropLast_concat_getLast]
  · obtain ⟨⟨lower, upper⟩, short, filled⟩ := turn.bounds
    exact ⟨⟨lower, upper, Nat.sub_le _ _⟩, short, filled⟩

/-- The second of two literals between the stars, in a name where each of them stands twice. -/
theorem accepts_inBounds_secondLiteral :
    '*' ∈ "a*b*c*d".toList ∧ Turn "a*b*c*d".toList "abbccd".toList ['a'] ['d'] ['c'] 2 ∧
      Careful.accepts "a*b*c*d".toList "abbccd".toList = .ok true ∧
      (∃ first middle last, splitAll (· == '*') "a*b*c*d".toList = first :: (middle ++ [last])) ∧
      (['a'].length ≤ 2 ∧ 2 ≤ "abbccd".toList.length - ['d'].length) ∧ ['c'] ≠ [] := by
  have turn : Turn "a*b*c*d".toList "abbccd".toList ['a'] ['d'] ['c'] 2 :=
    .mk [['b'], ['c']] [['b']] []
      (by decide) (by decide) (by decide) (by decide) (by decide) (by decide)
  have matched : accepts "a*b*c*d" "abbccd" = true := by decide
  obtain ⟨careful, cut, bounds⟩ := accepts_inBounds "a*b*c*d" "abbccd"
  obtain ⟨⟨lower, upper, -⟩, -, filled⟩ := bounds _ _ _ _ turn
  rw [matched] at careful
  exact ⟨by decide, turn, careful, cut (by decide), ⟨lower, upper⟩, filled⟩

end Wildcard

end TerraformPins
