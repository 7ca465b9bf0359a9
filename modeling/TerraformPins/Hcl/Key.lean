import TerraformPins.Hcl.Number
import TerraformPins.Hcl.Printer

/-!
# Equal keys of an object

Two keys of an object are equal if they are the same expression, whatever the blank space in them
and however their numbers are written. An object keeps one entry for each key: the place of the
first and the text of the last.

The comparison erases layouts and numbers from both keys and compares the texts.

## Main definitions

* `Expr.erase`: an expression with one blank wherever there can be some
* `Entry.sameKey`: whether two entries have equal keys
* `Entry.distinct`: the entries that an object keeps
-/

namespace TerraformPins.Hcl

/-- A layout of one blank on each side. -/
def Layout.plain : Layout :=
  .written [' '] [' ']

/-- A word between single blanks. -/
def Word.erase (w : Word) : Word :=
  ⟨[' '], w.word, [' ']⟩

/-- A directive without its layout. -/
def Marker.erase (m : Marker) : Marker :=
  { m with word := m.word.erase }

/-- A text for the value of a number. -/
def Number.canonical (written : Chars) : Chars :=
  let (negative, a, b) := Number.value written
  (if negative then ['-'] else []) ++ Nat.toDigits 10 a ++ '/' :: Nat.toDigits 10 b

mutual

/-- The expression with one blank wherever there can be blank space, and with its numbers by
value. -/
def Expr.erase : Expr → Expr
  | .mk _ node => .mk .plain node.erase

/-- A node without its layout. -/
def Node.erase : Node → Node
  | .text value => .text value
  | .number written => .number (Number.canonical written)
  | .name word => .name word
  | .template parts => .template (eraseParts parts)
  | .heredoc fence parts => .heredoc { fence with closing := [] } (eraseParts parts)
  | .list items finalComma _ => .list (eraseItems items) finalComma [' ']
  | .object entries _ => .object (eraseEntries entries) [' ']
  | .listFor _ words source value condition =>
    .listFor [' '] (words.map Word.erase) source.erase value.erase (eraseCondition condition)
  | .objectFor _ words source key value group condition =>
    .objectFor [' '] (words.map Word.erase) source.erase key.erase value.erase
      (group.map fun _ => [' ']) (eraseCondition condition)
  | .group inner => .group inner.erase
  | .unary op operand => .unary op operand.erase
  | .binary left op right => .binary left.erase op right.erase
  | .conditional condition yes no => .conditional condition.erase yes.erase no.erase
  | .call function _ arguments ending _ =>
    .call function [' '] (eraseItems arguments) ending [' ']
  | .select base steps => .select base.erase (eraseSteps steps)

/-- The condition of a loop without its layout. -/
def eraseCondition : Option Expr → Option Expr
  | some e => some e.erase
  | none => none

/-- Expressions without their layout. -/
def eraseItems : List Expr → List Expr
  | [] => []
  | e :: rest => e.erase :: eraseItems rest

/-- The parts of a template without their layout. -/
def eraseParts : List Part → List Part
  | [] => []
  | part :: rest => part.erase :: eraseParts rest

/-- A part of a template without its layout. -/
def Part.erase : Part → Part
  | .literal cs => .literal cs
  | .interpolation strip value => .interpolation strip value.erase
  | .branch strip _ condition yes otherwise no finish =>
    .branch strip [' '] condition.erase (eraseParts yes) (otherwise.map Marker.erase)
      (eraseParts no) finish.erase
  | .loop strip _ words source body finish =>
    .loop strip [' '] (words.map Word.erase) source.erase (eraseParts body) finish.erase

/-- The entries of an object without their layout. -/
def eraseEntries : List Entry → List Entry
  | [] => []
  | entry :: rest => entry.erase :: eraseEntries rest

/-- An entry without its layout. -/
def Entry.erase : Entry → Entry
  | .mk key _ value _ => .mk key.erase .equals value.erase .comma

/-- The steps into a value without their layout. -/
def eraseSteps : List Step → List Step
  | [] => []
  | step :: rest => step.erase :: eraseSteps rest

/-- A step into a value without its layout. -/
def Step.erase : Step → Step
  | .dot _ _ target => .dot [' '] [' '] target
  | .index _ value => .index [' '] value.erase
  | .star _ _ _ => .star [' '] [' '] [' ']

end

namespace Entry

/-- Whether two entries have equal keys. -/
def sameKey (a b : Entry) : Bool :=
  a.key.erase.chars [] == b.key.erase.chars []

/-- Puts `entry` in the place of the entry with the same key, or behind all others. -/
def put (entry : Entry) : List Entry → List Entry
  | [] => [entry]
  | e :: rest => if e.sameKey entry then entry :: rest else e :: put entry rest

/-- One entry for each key: the last one, in the place of the first. -/
def distinct (entries : List Entry) : List Entry :=
  entries.foldl (fun kept e => put e kept) []

end Entry

end TerraformPins.Hcl
