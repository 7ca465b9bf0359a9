import TerraformPins.Scan

/-!
# Blank space, comments and words of HCL

Two kinds of blank space are told apart: the space inside a line, which may hold comments between
`/*` and `*/`, and the space across lines, which may also hold line ends and line comments. A
carriage return is part of a line end or an error.

## Main definitions

* `Blank.inline`, `Blank.across`: the two kinds of blank space
* `Blank.lineEnd`, `Blank.lineComment`: the end of a line
* `identifier`: a word
-/

namespace TerraformPins.Hcl

namespace Blank

/-- The rest of a comment up to its end mark. -/
def commentTail : List Char → Option (List Char × List Char)
  | '*' :: '/' :: rest => some (['*', '/'], rest)
  | c :: rest => (commentTail rest).map fun (taken, rest) => (c :: taken, rest)
  | [] => none

/-- A comment between `/*` and `*/`. -/
def comment : Scan (List Char) := do
  let lead ← Scan.exactly ['/', '*']
  let tail ← commentTail
  pure (lead ++ tail)

/-- A line comment, up to the end of its line. -/
def lineComment : Scan (List Char) := do
  let lead ← Scan.exactly ['#'] <|> Scan.exactly ['/', '/']
  let tail ← Scan.run fun c => c != '\n' && c != '\r'
  pure (lead ++ tail)

/-- The end of a line. -/
def lineEnd : Scan (List Char) :=
  Scan.exactly ['\n'] <|> Scan.exactly ['\r', '\n']

/-- Spaces and tabs. -/
def isSpace (c : Char) : Bool :=
  c == ' ' || c == '\t'

/-- Blank space inside a line. -/
def inline : Scan (List Char) :=
  Scan.runs (Scan.run1 isSpace <|> comment)

/-- Blank space across lines. -/
def across : Scan (List Char) :=
  Scan.runs (Scan.run1 isSpace <|> lineEnd <|> comment <|> lineComment)

/-- Blank space inside a line, or across lines if `newlines` is set. -/
def gap (newlines : Bool) : Scan (List Char) :=
  if newlines then across else inline

end Blank

/-- The characters that begin a word. -/
def isWordStart (c : Char) : Bool :=
  c.isAlpha || c == '_'

/-- The characters that a word goes on with. -/
def isWordPart (c : Char) : Bool :=
  c.isAlphanum || c == '_' || c == '-'

/-- A word: a letter or an underscore, then letters, digits, underscores and hyphens. Letters are
ASCII letters. -/
def identifier : Scan (List Char) := do
  let first ← Scan.one isWordStart
  let more ← Scan.run isWordPart
  pure (first :: more)

end TerraformPins.Hcl
