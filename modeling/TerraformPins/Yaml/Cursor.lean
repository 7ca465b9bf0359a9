/-!
# Places in a YAML text

A cursor is the rest of a text together with where it begins: how many characters are before it,
and the line and the column. Blank space and line breaks between two pieces of a scalar are a
*gap*, which stands for spaces, for a single space or for line breaks.

## Main definitions

* `Cursor`: the rest of a text and its place
* `isBreak`, `isSpaceOrTab`: the classes of characters
* `Gap`, `Cursor.gap?`: the space between two pieces of a scalar
-/

namespace TerraformPins.Yaml

/-- The characters that end a line. -/
def isBreak (c : Char) : Bool :=
  c == '\r' || c == '\n' || c == '\u0085' || c == '\u2028' || c == '\u2029'

/-- Spaces and tabs. -/
def isSpaceOrTab (c : Char) : Bool :=
  c == ' ' || c == '\t'

/-- Whether a text begins with a blank or a line break, or is empty. -/
def startsBlank : List Char → Bool
  | [] => true
  | c :: _ => isSpaceOrTab c || isBreak c

/-- The characters of names of anchors and tags. -/
def isNameChar (c : Char) : Bool :=
  c.isAlphanum || c == '_' || c == '-'

/-- The characters that a text may hold. -/
def isAllowed (c : Char) : Bool :=
  c == '\t' || c == '\n' || c == '\r' || (0x20 ≤ c.toNat && c.toNat ≤ 0x7e) || c == '\u0085' ||
    (0xa0 ≤ c.toNat && c.toNat ≤ 0xd7ff) || (0xe000 ≤ c.toNat && c.toNat ≤ 0xfffd) ||
    0x10000 ≤ c.toNat

/-- The rest of a text and its place. -/
structure Cursor where
  rest : List Char
  index : Nat
  line : Nat
  column : Nat
  deriving Repr, Inhabited

namespace Cursor

/-- The beginning of a text. -/
def start (text : List Char) : Cursor :=
  ⟨text, 0, 0, 0⟩

/-- Goes `n` characters on in the same line. -/
def skip (c : Cursor) (n : Nat := 1) : Cursor :=
  ⟨c.rest.drop n, c.index + n, c.line, c.column + n⟩

/-- Goes to `rest`, a later place in the same line. -/
def goTo (c : Cursor) (rest : List Char) : Cursor :=
  c.skip (c.rest.length - rest.length)

/-- Goes behind the longest run of characters of the same line that satisfy `p`. -/
def skipWhile (c : Cursor) (p : Char → Bool) : Cursor :=
  c.skip (c.rest.takeWhile p).length

/-- Takes a line break and goes to the next line. Every break that is one of carriage return, line
feed and next line counts as a line feed; without a break nothing is taken. -/
def takeBreak (c : Cursor) : List Char × Cursor :=
  match c.rest with
  | '\r' :: '\n' :: rest => (['\n'], ⟨rest, c.index + 2, c.line + 1, 0⟩)
  | x :: rest =>
    if isBreak x then
      ([if x = '\u2028' ∨ x = '\u2029' then x else '\n'], ⟨rest, c.index + 1, c.line + 1, 0⟩)
    else ([], c)
  | [] => ([], c)

/-- Goes behind a line break. -/
def skipBreak (c : Cursor) : Cursor :=
  c.takeBreak.2

/-- Whether the text goes on with a line break. -/
def atBreak (c : Cursor) : Bool :=
  c.rest.head?.any isBreak

/-- Whether `mark` stands here at the beginning of a line, with a blank behind it. -/
def atMark (c : Cursor) (mark : List Char) : Bool :=
  c.column == 0 && mark.isPrefixOf c.rest && startsBlank (c.rest.drop mark.length)

/-- Whether a document begins or ends here. -/
def atDocumentMark (c : Cursor) : Bool :=
  c.atMark ['-', '-', '-'] || c.atMark ['.', '.', '.']

end Cursor

/-- The space between two pieces of a scalar. -/
structure Gap where
  /-- Blanks in front of the first line break, if there is no line break. -/
  blanks : List Char := []
  /-- Whether there is a line break. -/
  broken : Bool := false
  /-- The first line break; empty if it was escaped. -/
  first : List Char := []
  /-- The further line breaks. -/
  more : List Char := []
  deriving Repr, Inhabited

namespace Gap

/-- What a gap stands for: a single line break is folded into a space, of several the first is
dropped. -/
def text (g : Gap) : List Char :=
  if g.broken then
    if g.first = ['\n'] then (if g.more.isEmpty then [' '] else g.more) else g.first ++ g.more
  else g.blanks

end Gap

/-- Goes on in a gap. In a line behind the first, a tab in front of the column `limit` is an
error. -/
def Cursor.gapFrom? (limit : Nat) (g : Gap) (c : Cursor) : Nat → Option (Gap × Cursor)
  | 0 => some (g, c)
  | fuel + 1 =>
    match c.rest with
    | [] => some (g, c)
    | x :: _ =>
      if isSpaceOrTab x then
        if g.broken then
          if x = '\t' ∧ c.column < limit then none else gapFrom? limit g c.skip fuel
        else gapFrom? limit { g with blanks := g.blanks ++ [x] } c.skip fuel
      else if isBreak x then
        let (taken, c) := c.takeBreak
        if g.broken then gapFrom? limit { g with more := g.more ++ taken } c fuel
        else gapFrom? limit { g with blanks := [], broken := true, first := taken } c fuel
      else some (g, c)

/-- The gap that begins here; `limit` is the first column in which tabs are allowed. -/
def Cursor.gap? (limit : Nat) (g : Gap) (c : Cursor) : Option (Gap × Cursor) :=
  c.gapFrom? limit g c.rest.length

end TerraformPins.Yaml
