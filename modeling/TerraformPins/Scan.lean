import TerraformPins.Text

/-!
# Reading from the front of a text

A `Scan α` takes as much as it needs from the front of a text and returns what it made of it
together with the rest, or fails. Sequencing, failure and choice are those of a state over
`Option`, so a failed alternative leaves no trace.

Repetition ends when the repeated step fails or takes nothing. It is bounded by the length of the
text, which is no restriction: each step that takes something makes the text shorter.

## Main definitions

* `Scan`: a reader of the front of a text
* `Scan.exactly`, `Scan.one`, `Scan.run`: the leaves
* `Scan.optional`, `Scan.many`: choice and repetition
-/

namespace TerraformPins

/-- Takes something from the front of a text and returns the rest, or fails. -/
abbrev Scan := StateT (List Char) Option

namespace Scan

/-- Whether the text goes on with `lead`. -/
def sees (lead : List Char) : Scan Bool := lead.isPrefixOf <$> get

/-- Takes the given characters. -/
def exactly (lead : List Char) : Scan (List Char) := fun cs =>
  (stripFront? lead cs).map (lead, ·)

/-- Takes one character that satisfies `p`. -/
def one (p : Char → Bool) : Scan Char
  | c :: cs => if p c then some (c, cs) else none
  | [] => none

/-- Takes the longest run of characters that satisfy `p`, which may be empty. -/
def run (p : Char → Bool) : Scan (List Char) := fun cs =>
  some (cs.takeWhile p, cs.dropWhile p)

/-- Takes the longest run of characters that satisfy `p` and fails if there is none. -/
def run1 (p : Char → Bool) : Scan (List Char) := do
  let first ← one p
  let more ← run p
  pure (first :: more)

/-- Succeeds at the end of the text only. -/
def atEnd : Scan Unit
  | [] => some ((), [])
  | _ => none

/-- Succeeds, without taking anything, if the text goes on with `lead`. -/
def ahead (lead : List Char) : Scan Unit := do
  guard (← sees lead)

/-- What `p` takes, or `none` if it fails. -/
def optional (p : Scan α) : Scan (Option α) := fun cs =>
  match p cs with
  | some (a, cs) => some (some a, cs)
  | none => some (none, cs)

/-- Repeats `p` at most `fuel` times, as long as it succeeds and takes something. -/
def manyUpTo (p : Scan α) : Nat → Scan (List α)
  | 0 => pure []
  | fuel + 1 => fun cs =>
    match p cs with
    | none => some ([], cs)
    | some (a, rest) =>
      if rest.length < cs.length then
        (manyUpTo p fuel rest).map fun (more, rest) => (a :: more, rest)
      else some ([], cs)

/-- Repeats `p` as long as it succeeds and takes something. -/
def many (p : Scan α) : Scan (List α) := fun cs =>
  manyUpTo p cs.length cs

/-- Repeats a reader of characters and joins what it took. -/
def runs (p : Scan (List Char)) : Scan (List Char) :=
  List.flatten <$> many p

/-- Reads the whole text. -/
def all? (p : Scan α) (cs : List Char) : Option α :=
  match p cs with
  | some (a, []) => some a
  | _ => none

end Scan

end TerraformPins
