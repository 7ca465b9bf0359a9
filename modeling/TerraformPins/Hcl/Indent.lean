import TerraformPins.Hcl.Tree

/-!
# Indentation of heredocs

A heredoc opened with a dash lets its lines be indented together. The common indentation is the
least number of blanks in front of a line; it is taken from the literal parts when a heredoc is
read, and written back as spaces in front of every line that is not empty. The lines of an
interpolation or a directive lose nothing but are indented all the same.

There is no common indentation if a line begins with an interpolation or a directive, or if no
literal part has one.

## Main definitions

* `common?`: the common indentation of the parts of a heredoc
* `strip`: the parts without it
* `indent`: text with it
-/

namespace TerraformPins.Hcl.Indent

/-- The lines of a text, without their ends. -/
def lines (cs : Chars) : List Chars :=
  splitAll (· == '\n') cs

/-- Whether nothing but a line end stands on a line. -/
def isEmptyLine (line : Chars) : Bool :=
  line.isEmpty || line == ['\r']

/-- The least number of blanks in front of the lines of a literal, if every line has some. With
`inside`, the literal begins in the middle of a line, which does not count. -/
def ofLiteral? (inside : Bool) (cs : Chars) : Option Nat :=
  let counts := ((if inside then (lines cs).drop 1 else lines cs).filter (!isEmptyLine ·)).map
    fun line => (line.takeWhile isBlank).length
  if 0 ∈ counts then none else counts.min?

/-- Whether the text behind a literal is in the middle of a line. -/
def endsInside (cs : Chars) : Bool :=
  cs.getLast? != some '\n'

/-- The lesser of the indentations that are there. -/
def least? : Option Nat → Option Nat → Option Nat
  | some a, some b => some (min a b)
  | some a, none => some a
  | none, b => b

/-- The common indentation of the parts that follow; `inside` says whether they begin in the middle
of a line and `found` is the indentation of the parts before. -/
def commonFrom? (inside : Bool) (found : Option Nat) : List Part → Option Nat
  | [] => found
  | .literal cs :: rest => commonFrom? (endsInside cs) (least? found (ofLiteral? inside cs)) rest
  | _ :: rest => if inside then commonFrom? true found rest else none

/-- The common indentation of the parts of a heredoc. -/
def common? (parts : List Part) : Option Nat :=
  commonFrom? false none parts

/-- Takes at most `n` blanks from the front of a line. -/
def dropBlanks : Nat → Chars → Chars
  | n + 1, c :: rest => if isBlank c then dropBlanks n rest else c :: rest
  | _, line => line

/-- Takes `n` blanks from the front of each line of a literal. -/
def stripLiteral (n : Nat) (inside : Bool) (cs : Chars) : Chars :=
  let cut (line : Chars) := if isEmptyLine line then line else dropBlanks n line
  match lines cs with
  | first :: more => joinWith ['\n'] ((if inside then first else cut first) :: more.map cut)
  | [] => []

/-- Takes `n` blanks from the front of each line of the literal parts. -/
def strip (n : Nat) (inside : Bool) : List Part → List Part
  | [] => []
  | .literal cs :: rest => .literal (stripLiteral n inside cs) :: strip n (endsInside cs) rest
  | part :: rest => part :: strip n true rest

/-- Writes `n` spaces in front of each line that is not empty. -/
def indent (n : Nat) (cs : Chars) : Chars :=
  joinWith ['\n'] ((lines cs).map fun line =>
    if isEmptyLine line then line else List.replicate n ' ' ++ line)

end TerraformPins.Hcl.Indent
