import TerraformPins.Hcl.Tree
import TerraformPins.Hcl.Quoted
import TerraformPins.Hcl.Indent

/-!
# The text of an HCL tree

Printing puts the stored blank space and comments back where they stood. Quoted text is written from
its value in one form, and a line end that ends a structure or an entry is a single line feed.

## Main definitions

* `Expr.chars`, `Node.chars`: the text of an expression with and without its layout
* `Structure.chars`: the text of an attribute or a block
* `Body.chars`: the text of a document
-/

namespace TerraformPins.Hcl

/-- The text of something inside its layout; a side that is not written is taken from `before` or is
empty. -/
def Layout.around (layout : Layout) (before inner : Chars) : Chars :=
  layout.before.getD before ++ inner ++ layout.after.getD []

/-- The sign of an operator in front of a term. -/
def UnaryOp.chars : UnaryOp → Chars
  | negate => ['-']
  | complement => ['!']

/-- The sign of an operator between two expressions. -/
def BinaryOp.chars : BinaryOp → Chars
  | equal => ['=', '=']
  | unequal => ['!', '=']
  | atMost => ['<', '=']
  | atLeast => ['>', '=']
  | below => ['<']
  | above => ['>']
  | plus => ['+']
  | minus => ['-']
  | times => ['*']
  | divide => ['/']
  | modulo => ['%']
  | both => ['&', '&']
  | either => ['|', '|']

/-- The text between the key and the value of an entry. -/
def Sign.chars : Sign → Chars
  | equals => ['=']
  | colon => [':']

/-- The text that ends an entry; the closing brace is not part of it. -/
def Stop.chars : Stop → Chars
  | brace => []
  | newline => ['\n']
  | comma => [',']

/-- The text behind the last argument of a call. -/
def CallEnd.chars : CallEnd → Chars
  | plain => []
  | comma => [',']
  | expand => ['.', '.', '.']

/-- The text of a word with the blank space around it. -/
def Word.chars (w : Word) : Chars :=
  w.before ++ w.word ++ w.after

/-- Words with commas between them. -/
def wordsChars (words : List Word) : Chars :=
  joinWith [','] (words.map Word.chars)

/-- The mark that strips blank space, or nothing. -/
def stripChars (on : Bool) : Chars :=
  if on then ['~'] else []

/-- The text of a directive in a template. -/
def Marker.chars (m : Marker) : Chars :=
  ['%', '{'] ++ stripChars m.strip.left ++ m.word.chars ++ stripChars m.strip.right ++ ['}']

/-- The text of a label and the blank space behind it. -/
def Label.chars (l : Label) : Chars :=
  (if l.quoted then '"' :: Quoted.encode l.text ++ ['"'] else l.text) ++ l.after

/-- The head of a loop up to its source. -/
def loopChars (lead : Chars) (words : List Word) : Chars :=
  lead ++ ['f', 'o', 'r'] ++ wordsChars words ++ ['i', 'n']

mutual

/-- The text of an expression; `before` stands in front of it if nothing is written there. -/
def Expr.chars (before : Chars) : Expr → Chars
  | .mk layout node => layout.around before node.chars

/-- The text of an expression without what is around it. -/
def Node.chars : Node → Chars
  | .text value => '"' :: Quoted.encode value ++ ['"']
  | .number written => written
  | .name word => word
  | .template parts => '"' :: partsChars true parts ++ ['"']
  | .heredoc fence parts =>
    ['<', '<'] ++ (if fence.indent.isSome then ['-'] else []) ++ fence.word ++ ['\n'] ++
      (match fence.indent with
        | some n => Indent.indent n (partsChars false parts)
        | none => partsChars false parts) ++
      fence.closing ++ fence.word
  | .list items finalComma closing =>
    '[' :: itemsChars items ++ (if finalComma then [','] else []) ++ closing ++ [']']
  | .object entries closing => '{' :: entriesChars entries ++ closing ++ ['}']
  | .listFor lead words source value condition =>
    '[' :: loopChars lead words ++ source.chars [] ++ ':' :: value.chars [] ++
      conditionChars condition ++ [']']
  | .objectFor lead words source key value group condition =>
    '{' :: loopChars lead words ++ source.chars [] ++ ':' :: key.chars [] ++ ['=', '>'] ++
      value.chars [] ++
      (match group with
        | some after => ['.', '.', '.'] ++ after
        | none => []) ++
      conditionChars condition ++ ['}']
  | .group inner => '(' :: inner.chars [] ++ [')']
  | .unary op operand => op.chars ++ operand.chars []
  | .binary left op right => left.chars [] ++ op.chars ++ right.chars []
  | .conditional condition yes no =>
    condition.chars [] ++ '?' :: yes.chars [] ++ ':' :: no.chars []
  | .call function gap arguments ending closing =>
    function ++ gap ++ '(' :: itemsChars arguments ++ ending.chars ++ closing ++ [')']
  | .select base steps => base.chars [] ++ stepsChars steps

/-- The condition at the end of a loop. -/
def conditionChars : Option Expr → Chars
  | some e => ['i', 'f'] ++ e.chars []
  | none => []

/-- Expressions with commas between them. -/
def itemsChars : List Expr → Chars
  | [] => []
  | e :: rest => e.chars [] ++ moreItemsChars rest

/-- Expressions with a comma in front of each. -/
def moreItemsChars : List Expr → Chars
  | [] => []
  | e :: rest => ',' :: e.chars [] ++ moreItemsChars rest

/-- The parts of a template; the literal ones are written values if it is quoted. -/
def partsChars (quoted : Bool) : List Part → Chars
  | [] => []
  | part :: rest => part.chars quoted ++ partsChars quoted rest

/-- The text of a part of a template, between quotes or in a heredoc. -/
def Part.chars (quoted : Bool) : Part → Chars
  | .literal cs => if quoted then Quoted.encode cs else cs
  | .interpolation strip value =>
    ['$', '{'] ++ stripChars strip.left ++ value.chars [] ++ stripChars strip.right ++ ['}']
  | .branch strip lead condition yes otherwise no finish =>
    ['%', '{'] ++ stripChars strip.left ++ lead ++ ['i', 'f'] ++ condition.chars [] ++
      stripChars strip.right ++ ['}'] ++ partsChars quoted yes ++
      (match otherwise with
        | some marker => marker.chars
        | none => []) ++
      partsChars quoted no ++ finish.chars
  | .loop strip lead words source body finish =>
    ['%', '{'] ++ stripChars strip.left ++ loopChars lead words ++ source.chars [] ++
      stripChars strip.right ++ ['}'] ++ partsChars quoted body ++ finish.chars

/-- The text of the entries of an object. -/
def entriesChars : List Entry → Chars
  | [] => []
  | entry :: rest => entry.chars ++ entriesChars rest

/-- An entry of an object. -/
def Entry.chars : Entry → Chars
  | .mk key sign value stop => entryKeyChars key ++ sign.chars ++ value.chars [' '] ++ stop.chars

/-- The key of an entry, with a blank behind it if nothing is written there. -/
def entryKeyChars : Expr → Chars
  | .mk layout node => layout.before.getD [] ++ node.chars ++ layout.after.getD [' ']

/-- The text of the steps into a value. -/
def stepsChars : List Step → Chars
  | [] => []
  | step :: rest => step.chars ++ stepsChars rest

/-- The text of a step into a value. -/
def Step.chars : Step → Chars
  | .dot before gap target => before ++ '.' :: gap ++ target
  | .index before value => before ++ '[' :: value.chars [] ++ [']']
  | .star before left right => before ++ '[' :: left ++ '*' :: right ++ [']']

end

mutual

/-- The text of an attribute or a block, without the line end behind it. -/
def Structure.chars : Structure → Chars
  | .attr layout key gap value =>
    layout.around [] (key ++ gap.getD [' '] ++ '=' :: value.chars [' '])
  | .block layout word gap labels frame items =>
    layout.around [] (word ++ gap ++ (labels.map Label.chars).flatten ++ '{' :: frame.opening ++
      (if frame.oneLine then rowChars items else '\n' :: linesChars frame.lastLineEnds items) ++
      frame.closing ++ ['}'])

/-- Structures on one line. -/
def rowChars : List Structure → Chars
  | [] => []
  | s :: rest => s.chars ++ rowChars rest

/-- Structures on lines of their own; `lastLineEnds` says whether the last line has a line end. -/
def linesChars (lastLineEnds : Bool) : List Structure → Chars
  | [] => []
  | s :: rest =>
    s.chars ++ (if rest.isEmpty ∧ ¬ lastLineEnds then [] else ['\n']) ++
      linesChars lastLineEnds rest

end

/-- The text of a document. -/
def Body.chars (body : Body) : Chars :=
  linesChars body.frame.lastLineEnds body.items ++ body.frame.closing

end TerraformPins.Hcl
