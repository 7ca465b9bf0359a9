import TerraformPins.Text

/-!
# The tree of an HCL document

The tree keeps everything that was written: with every expression, attribute and block it stores
the blank space and the comments around it. Text is kept as lists of characters.

An expression is a `Layout` around a `Node`. A side of a layout is `none` if nothing was ever
written there, as for an attribute that is added to a document; the printer then puts what is
customary.

## Main definitions

* `Layout`: the blank space and comments around something
* `Expr`, `Node`, `Part`, `Entry`, `Step`: expressions
* `Structure`, `Frame`, `Body`: attributes and blocks
-/

namespace TerraformPins.Hcl

/-- Characters as they stand in a document. -/
abbrev Chars := List Char

/-- The blank space and the comments before and after something; `none` where nothing was ever
written. -/
structure Layout where
  before : Option Chars := none
  after : Option Chars := none
  deriving DecidableEq, Repr, Inhabited

/-- A layout whose two sides are written. -/
def Layout.written (before after : Chars) : Layout :=
  ⟨some before, some after⟩

/-- A word with the blank space around it. -/
structure Word where
  before : Chars
  word : Chars
  after : Chars
  deriving DecidableEq, Repr, Inhabited

/-- The marks at the two ends of an interpolation or a directive that take away the blank space
next to it. -/
structure Strip where
  left : Bool
  right : Bool
  deriving DecidableEq, Repr, Inhabited

/-- A directive that is one word, such as the end of a loop. -/
structure Marker where
  strip : Strip
  word : Word
  deriving DecidableEq, Repr, Inhabited

/-- The operators in front of a term. -/
inductive UnaryOp where
  | negate
  | complement
  deriving DecidableEq, Repr, Inhabited

/-- The operators between two expressions. -/
inductive BinaryOp where
  | equal
  | unequal
  | atMost
  | atLeast
  | below
  | above
  | plus
  | minus
  | times
  | divide
  | modulo
  | both
  | either
  deriving DecidableEq, Repr, Inhabited

/-- What stands between the key and the value of an object entry. -/
inductive Sign where
  | equals
  | colon
  deriving DecidableEq, Repr, Inhabited

/-- What ends an object entry; the last one may end at the closing brace. -/
inductive Stop where
  | brace
  | newline
  | comma
  deriving DecidableEq, Repr, Inhabited

/-- What stands after the last argument of a call. -/
inductive CallEnd where
  | plain
  | comma
  | expand
  deriving DecidableEq, Repr, Inhabited

/-- How a heredoc is opened and closed. With an indentation of `n`, that many blanks have been taken
from the front of its lines and are put back by the printer. -/
structure Fence where
  indent : Option Nat
  word : Chars
  closing : Chars
  deriving DecidableEq, Repr, Inhabited

mutual

/-- An expression with the blank space and comments around it. -/
inductive Expr where
  | mk (layout : Layout) (node : Node)

/-- An expression without what is around it. -/
inductive Node where
  /-- A quoted string without interpolation, as its value. -/
  | text (value : Chars)
  /-- A number as written, with its sign. -/
  | number (written : Chars)
  /-- A variable or one of the words `true`, `false` and `null`. -/
  | name (word : Chars)
  | template (parts : List Part)
  | heredoc (fence : Fence) (parts : List Part)
  | list (items : List Expr) (finalComma : Bool) (closing : Chars)
  | object (entries : List Entry) (closing : Chars)
  | listFor (lead : Chars) (words : List Word) (source value : Expr) (condition : Option Expr)
  | objectFor (lead : Chars) (words : List Word) (source key value : Expr) (group : Option Chars)
      (condition : Option Expr)
  | group (inner : Expr)
  | unary (op : UnaryOp) (operand : Expr)
  | binary (left : Expr) (op : BinaryOp) (right : Expr)
  | conditional (condition yes no : Expr)
  | call (function gap : Chars) (arguments : List Expr) (ending : CallEnd) (closing : Chars)
  | select (base : Expr) (steps : List Step)

/-- A part of a quoted template or a heredoc. -/
inductive Part where
  /-- Literal text: its value in a quoted template, as written in a heredoc. -/
  | literal (chars : Chars)
  | interpolation (strip : Strip) (value : Expr)
  | branch (strip : Strip) (lead : Chars) (condition : Expr) (yes : List Part)
      (otherwise : Option Marker) (no : List Part) (finish : Marker)
  | loop (strip : Strip) (lead : Chars) (words : List Word) (source : Expr) (body : List Part)
      (finish : Marker)

/-- An entry of an object. -/
inductive Entry where
  | mk (key : Expr) (sign : Sign) (value : Expr) (stop : Stop)

/-- A step from a value to a part of it. -/
inductive Step where
  /-- A dot and an attribute name, an index or a star. -/
  | dot (before gap target : Chars)
  | index (before : Chars) (value : Expr)
  /-- A star in brackets. -/
  | star (before left right : Chars)

end

instance : Inhabited Expr := ⟨.mk {} (.name [])⟩
instance : Inhabited Node := ⟨.name []⟩
instance : Inhabited Part := ⟨.literal []⟩
instance : Inhabited Entry := ⟨.mk default .equals default .brace⟩
instance : Inhabited Step := ⟨.dot [] [] []⟩

namespace Expr

/-- The layout of an expression. -/
def layout : Expr → Layout
  | mk layout _ => layout

/-- What an expression says, apart from its layout. -/
def node : Expr → Node
  | mk _ node => node

/-- The same expression in another layout. -/
def withLayout (e : Expr) (layout : Layout) : Expr :=
  .mk layout e.node

end Expr

namespace Entry

/-- The key of an entry. -/
def key : Entry → Expr
  | mk key _ _ _ => key

/-- What stands between the key and the value. -/
def sign : Entry → Sign
  | mk _ sign _ _ => sign

/-- The value of an entry. -/
def value : Entry → Expr
  | mk _ _ value _ => value

/-- What ends an entry. -/
def stop : Entry → Stop
  | mk _ _ _ stop => stop

/-- The text that names an entry, if its key is a word or a quoted string. -/
def keyText? (e : Entry) : Option Chars :=
  match e.key.node with
  | .name word => some word
  | .text value => some value
  | _ => none

end Entry

/-- A label of a block. -/
structure Label where
  /-- Whether the label is written in quotes. -/
  quoted : Bool
  text : Chars
  after : Chars
  deriving DecidableEq, Repr, Inhabited

/-- The outer form of a body. -/
structure Frame where
  /-- What stands between the opening brace and the end of its line. -/
  opening : Chars
  /-- What stands behind the last structure. -/
  closing : Chars
  /-- Whether the body is written on the line of its braces. -/
  oneLine : Bool
  /-- Whether the line of the last structure has a line end. -/
  lastLineEnds : Bool
  deriving DecidableEq, Repr, Inhabited

/-- An attribute or a block. -/
inductive Structure where
  | attr (layout : Layout) (key : Chars) (gap : Option Chars) (value : Expr)
  | block (layout : Layout) (word gap : Chars) (labels : List Label) (frame : Frame)
      (items : List Structure)

instance : Inhabited Structure := ⟨.attr {} [] none default⟩

/-- The attributes and blocks of a document or a block, in the order of the text. -/
structure Body where
  frame : Frame
  items : List Structure

instance : Inhabited Body := ⟨⟨default, []⟩⟩

namespace Structure

/-- The layout of a structure. -/
def layout : Structure → Layout
  | attr layout .. => layout
  | block layout .. => layout

/-- The same structure in another layout. -/
def withLayout (layout : Layout) : Structure → Structure
  | attr _ key gap value => attr layout key gap value
  | block _ word gap labels frame items => block layout word gap labels frame items

/-- The value of the attribute `key`, if the structure is that attribute. -/
def valueOf? (key : Chars) : Structure → Option Expr
  | attr _ k _ value => if k = key then some value else none
  | block .. => none

end Structure

end TerraformPins.Hcl
