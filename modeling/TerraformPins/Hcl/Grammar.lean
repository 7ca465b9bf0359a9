import TerraformPins.Hcl.Key

/-!
# Reading HCL expressions

Every production is a reader of its own that takes the reader for nested expressions as an argument.
The knot is tied by a bound on the nesting depth, for which the length of the text is enough: each
nested expression begins behind at least one character of the outer one.

Line ends in front of an operator are allowed inside parentheses, and after a term in parentheses in
the same expression; a nested operand inherits what its expression allows. Of several signs in front
of a term the last one counts, and the blank space behind a sign is not kept.

## Main definitions

* `Grammar.term`, `Grammar.step`, `Grammar.expression`: the productions
* `node`: an expression without what is around it
-/

namespace TerraformPins.Hcl

namespace Grammar

/-- A reader for nested expressions; the argument says whether line ends are allowed in front of
operators. -/
abbrev Nested := Bool → Scan Node

/-- An expression between what `before` and `after` take. -/
def between (before : Scan Chars) (inner : Scan Node) (after : Scan Chars) : Scan Expr := do
  let left ← before
  let node ← inner
  let right ← after
  pure (.mk (.written left right) node)

/-- An expression in brackets of some kind, with blank space across lines around it. -/
def spaced (nested : Nested) : Scan Expr :=
  between Blank.across (nested false) Blank.across

/-- A word with blank space across lines around it. -/
def spacedWord : Scan Word := do
  let before ← Blank.across
  let word ← identifier
  let after ← Blank.across
  pure ⟨before, word, after⟩

/-- The mark that strips blank space, if it is there. -/
def stripMark : Scan Bool :=
  Option.isSome <$> Scan.optional (Scan.exactly ['~'])

/-- The head of a loop: the blank space in front, the words and the source. -/
def loopHead (nested : Nested) : Scan (Chars × List Word × Expr) := do
  let lead ← Blank.across
  let _ ← Scan.exactly ['f', 'o', 'r']
  let first ← spacedWord
  let second ← Scan.optional (do
    let _ ← Scan.exactly [',']
    spacedWord)
  let _ ← Scan.exactly ['i', 'n']
  let source ← spaced nested
  pure (lead, first :: second.toList, source)

/-- The condition at the end of a loop. -/
def loopCondition (nested : Nested) : Scan Expr := do
  let _ ← Scan.exactly ['i', 'f']
  spaced nested

/-! ### Templates -/

/-- An interpolation. -/
def interpolation (nested : Nested) : Scan Part := do
  let _ ← Scan.exactly ['$', '{']
  let left ← stripMark
  let value ← spaced nested
  let right ← stripMark
  let _ ← Scan.exactly ['}']
  pure (.interpolation ⟨left, right⟩ value)

/-- A directive that is one word. -/
def marker (word : Chars) : Scan Marker := do
  let _ ← Scan.exactly ['%', '{']
  let left ← stripMark
  let before ← Blank.across
  let _ ← Scan.exactly word
  let after ← Blank.across
  let right ← stripMark
  let _ ← Scan.exactly ['}']
  pure ⟨⟨left, right⟩, ⟨before, word, after⟩⟩

/-- A conditional part of a template. -/
def branch (nested : Nested) (parts : Scan (List Part)) : Scan Part := do
  let _ ← Scan.exactly ['%', '{']
  let left ← stripMark
  let lead ← Blank.across
  let condition ← loopCondition nested
  let right ← stripMark
  let _ ← Scan.exactly ['}']
  let yes ← parts
  let otherwise ← Scan.optional (marker ['e', 'l', 's', 'e'])
  let no ← if otherwise.isSome then parts else pure []
  let finish ← marker ['e', 'n', 'd', 'i', 'f']
  pure (.branch ⟨left, right⟩ lead condition yes otherwise no finish)

/-- A repeated part of a template. -/
def loop (nested : Nested) (parts : Scan (List Part)) : Scan Part := do
  let _ ← Scan.exactly ['%', '{']
  let left ← stripMark
  let (lead, words, source) ← loopHead nested
  let right ← stripMark
  let _ ← Scan.exactly ['}']
  let body ← parts
  let finish ← marker ['e', 'n', 'd', 'f', 'o', 'r']
  pure (.loop ⟨left, right⟩ lead words source body finish)

/-- The parts of a template whose directives are nested at most `depth` deep. -/
def partsUpTo (nested : Nested) (literal : Scan Chars) : Nat → Scan (List Part)
  | 0 => pure []
  | depth + 1 =>
    let inner := partsUpTo nested literal depth
    Scan.many (Part.literal <$> literal <|> interpolation nested <|> branch nested inner <|>
      loop nested inner)

/-- The parts of a template, with the given reader for literal text. -/
def parts (nested : Nested) (literal : Scan Chars) : Scan (List Part) := fun cs =>
  partsUpTo nested literal (cs.length + 1) cs

/-- A quoted string or template. A template that is one literal part is a string. -/
def quoted (nested : Nested) : Scan Node := do
  let _ ← Scan.exactly ['"']
  let parts ← parts nested Quoted.part
  let _ ← Scan.exactly ['"']
  match parts with
  | [] => pure (.text [])
  | [.literal value] => pure (.text value)
  | _ => pure (.template parts)

/-! ### Heredocs -/

/-- Whether a line end, blanks and then the closing word of a heredoc follow. -/
def closes (word cs : Chars) : Bool :=
  match Blank.lineEnd cs with
  | some (_, rest) => word.isPrefixOf (rest.dropWhile Blank.isSpace)
  | none => false

/-- Literal text of a heredoc up to the line end in front of its closing word. -/
def heredocText (word : Chars) : Chars → Chars × Chars
  | [] => ([], [])
  | '$' :: '{' :: rest => ([], '$' :: '{' :: rest)
  | '%' :: '{' :: rest => ([], '%' :: '{' :: rest)
  | '$' :: '$' :: '{' :: rest =>
    let (taken, rest) := heredocText word rest
    ('$' :: '$' :: '{' :: taken, rest)
  | '%' :: '%' :: '{' :: rest =>
    let (taken, rest) := heredocText word rest
    ('%' :: '%' :: '{' :: taken, rest)
  | c :: rest =>
    if closes word (c :: rest) then ([], c :: rest)
    else
      let (taken, rest) := heredocText word rest
      (c :: taken, rest)

/-- Literal text of a heredoc that is not empty. -/
def heredocLiteral (word : Chars) : Scan Chars := fun cs =>
  match heredocText word cs with
  | ([], _) => none
  | (taken, rest) => some (taken, rest)

/-- Adds the last line end to the parts of a heredoc. -/
def withLineEnd (lineEnd : Chars) : List Part → List Part
  | [] => [.literal lineEnd]
  | [.literal cs] => [.literal (cs ++ lineEnd)]
  | part :: rest => part :: withLineEnd lineEnd rest

/-- The lines of a heredoc and the blanks in front of its closing word. If the parts do not end with
a line end, there are no lines, unless an interpolation was begun. -/
def heredocLines (nested : Nested) (word : Chars) : Scan (List Part × Chars) := do
  let start ← get
  let parts ← parts nested (heredocLiteral word)
  match ← Scan.optional Blank.lineEnd with
  | some lineEnd =>
    let closing ← Scan.run Blank.isSpace
    pure (withLineEnd lineEnd parts, closing)
  | none =>
    guard (!(← Scan.sees ['$', '{']))
    set start
    let closing ← Scan.run Blank.isSpace
    pure ([], closing)

/-- A heredoc. The dash is kept only if its lines have a common indentation. -/
def heredoc (nested : Nested) : Scan Node := do
  let _ ← Scan.exactly ['<', '<']
  let dash ← Scan.optional (Scan.exactly ['-'])
  let word ← identifier
  let _ ← Blank.lineEnd
  let (parts, closing) ← heredocLines nested word
  let _ ← Scan.exactly word
  match if dash.isSome then Indent.common? parts else none with
  | some n => pure (.heredoc ⟨some n, word, closing⟩ (Indent.strip n false parts))
  | none => pure (.heredoc ⟨none, word, closing⟩ parts)

/-! ### Lists and objects -/

/-- Whether a loop begins here. -/
def seesLoop : Scan Bool := fun cs =>
  let loop := do
    let _ ← Blank.across
    let _ ← Scan.exactly ['f', 'o', 'r']
    Scan.one fun c => c == ' ' || c == '\t' || c == '#' || c == '/'
  some ((loop cs).isSome, cs)

/-- Items with commas between them. -/
def items (nested : Nested) : Scan (List Expr) := do
  match ← Scan.optional (spaced nested) with
  | none => pure []
  | some first =>
    let more ← Scan.many (do
      let _ ← Scan.exactly [',']
      spaced nested)
    pure (first :: more)

/-- The rest of a list behind its opening bracket. -/
def listTail (nested : Nested) : Scan Node := do
  let items ← items nested
  let comma ← if items.isEmpty then pure none else Scan.optional (Scan.exactly [','])
  let closing ← Blank.across
  let _ ← Scan.exactly [']']
  pure (.list items comma.isSome closing)

/-- The rest of a list made by a loop. -/
def listForTail (nested : Nested) : Scan Node := do
  let (lead, words, source) ← loopHead nested
  let _ ← Scan.exactly [':']
  let value ← spaced nested
  let condition ← Scan.optional (loopCondition nested)
  let _ ← Scan.exactly [']']
  pure (.listFor lead words source value condition)

/-- A list. -/
def list (nested : Nested) : Scan Node := do
  let _ ← Scan.exactly ['[']
  if ← seesLoop then listForTail nested else listTail nested

/-- What ends an entry of an object, with the comment in front of it. -/
def entryStop : Scan (Chars × Stop) :=
  (do
    let _ ← Scan.exactly [',']
    pure ([], Stop.comma)) <|>
  (do
    let _ ← Blank.lineEnd
    pure ([], Stop.newline)) <|>
  (do
    let comment ← Blank.lineComment
    let _ ← Blank.lineEnd
    pure (comment, Stop.newline)) <|>
  (do
    Scan.ahead ['}']
    pure ([], Stop.brace))

/-- The sign between a key and its value. -/
def sign : Scan Sign :=
  (do
    let _ ← Scan.exactly ['=']
    pure Sign.equals) <|>
  (do
    let _ ← Scan.exactly [':']
    pure Sign.colon)

/-- An entry of an object. -/
def entry (nested : Nested) : Scan Entry := do
  let key ← between Blank.across (nested false) Blank.inline
  let sign ← sign
  let before ← Blank.inline
  let value ← nested false
  let after ← Blank.inline
  let (comment, stop) ← entryStop
  pure (.mk key sign (.mk (.written before (after ++ comment)) value) stop)

/-- The rest of an object behind its opening brace. -/
def objectTail (nested : Nested) : Scan Node := do
  let entries ← Scan.many (entry nested)
  let closing ← Blank.across
  let _ ← Scan.exactly ['}']
  pure (.object (Entry.distinct entries) closing)

/-- The rest of an object made by a loop. -/
def objectForTail (nested : Nested) : Scan Node := do
  let (lead, words, source) ← loopHead nested
  let _ ← Scan.exactly [':']
  let key ← spaced nested
  let _ ← Scan.exactly ['=', '>']
  let value ← spaced nested
  let group ← Scan.optional (do
    let _ ← Scan.exactly ['.', '.', '.']
    Blank.across)
  let condition ← Scan.optional (loopCondition nested)
  let _ ← Scan.exactly ['}']
  pure (.objectFor lead words source key value group condition)

/-- An object. -/
def object (nested : Nested) : Scan Node := do
  let _ ← Scan.exactly ['{']
  if ← seesLoop then objectForTail nested else objectTail nested

/-! ### Terms and operators -/

/-- What stands behind the last argument of a call. -/
def callEnd : Scan CallEnd :=
  (do
    let _ ← Scan.exactly [',']
    pure CallEnd.comma) <|>
  (do
    let _ ← Scan.exactly ['.', '.', '.']
    pure CallEnd.expand) <|>
  pure CallEnd.plain

/-- The rest of a call behind the name of the function. -/
def callTail (nested : Nested) (function : Chars) : Scan Node := do
  let gap ← Blank.across
  let _ ← Scan.exactly ['(']
  let arguments ← items nested
  let ending ← if arguments.isEmpty then pure .plain else callEnd
  let closing ← Blank.across
  let _ ← Scan.exactly [')']
  pure (.call function gap arguments ending closing)

/-- A word, or the call of a function. -/
def nameOrCall (nested : Nested) : Scan Node := do
  let word ← identifier
  callTail nested word <|> pure (.name word)

/-- An expression in parentheses. -/
def group (nested : Nested) : Scan Node := do
  let _ ← Scan.exactly ['(']
  let inner ← between Blank.across (nested true) Blank.across
  let _ ← Scan.exactly [')']
  pure (.group inner)

/-- A term, together with whether it is in parentheses. -/
def term (nested : Nested) : Scan (Node × Bool) :=
  (·, true) <$> group nested <|>
  (·, false) <$> (quoted nested <|> list nested <|> object nested <|>
    Node.number <$> (Number.unsigned <|> Number.signed) <|> heredoc nested <|> nameOrCall nested)

/-- An index behind a dot: digits without leading zeros that fit 64 bits. -/
def dotIndex : Scan Chars := do
  let digits ← Scan.run1 Char.isDigit
  guard ((digits.length = 1 || digits.head? != some '0') && naturalOf digits < Nat.pow 2 64)
  pure digits

/-- A step to a part of a value. -/
def step (nested : Nested) (newlines : Bool) : Scan Step := do
  let before ← Blank.gap newlines
  (do
    let _ ← Scan.exactly ['.']
    let gap ← Blank.across
    let target ← identifier <|> dotIndex <|> Scan.exactly ['*']
    pure (Step.dot before gap target)) <|>
  (do
    let _ ← Scan.exactly ['[']
    let left ← Blank.across
    let _ ← Scan.exactly ['*']
    let right ← Blank.across
    let _ ← Scan.exactly [']']
    pure (Step.star before left right)) <|>
  (do
    let _ ← Scan.exactly ['[']
    let value ← spaced nested
    let _ ← Scan.exactly [']']
    pure (Step.index before value))

/-- A sign in front of a term that is not part of a number. -/
def unaryOp : Scan UnaryOp :=
  (do
    let _ ← Scan.exactly ['!']
    let _ ← Blank.inline
    pure UnaryOp.complement) <|>
  (fun cs => if (Number.signed cs).isSome then none else some ((), cs)) *>
  (do
    let _ ← Scan.exactly ['-']
    let _ ← Blank.inline
    pure UnaryOp.negate)

/-- A binary operator. A slash that begins a comment is none. -/
def binaryOp : Scan BinaryOp
  | '=' :: '=' :: rest => some (.equal, rest)
  | '!' :: '=' :: rest => some (.unequal, rest)
  | '<' :: '=' :: rest => some (.atMost, rest)
  | '>' :: '=' :: rest => some (.atLeast, rest)
  | '<' :: rest => some (.below, rest)
  | '>' :: rest => some (.above, rest)
  | '+' :: rest => some (.plus, rest)
  | '-' :: rest => some (.minus, rest)
  | '*' :: rest => some (.times, rest)
  | '/' :: rest => if rest.head? = some '/' then none else some (.divide, rest)
  | '%' :: rest => some (.modulo, rest)
  | '&' :: '&' :: rest => some (.both, rest)
  | '|' :: '|' :: rest => some (.either, rest)
  | _ => none

/-- What follows the first operand: a conditional, a binary operator, or nothing. -/
def operation (nested : Nested) (newlines : Bool) (first : Node) : Scan Node :=
  (do
    let gap ← Blank.gap newlines
    let _ ← Scan.exactly ['?']
    let yes ← between (Blank.gap newlines) (nested newlines) (Blank.gap newlines)
    let _ ← Scan.exactly [':']
    let no ← between (Blank.gap newlines) (nested newlines) (pure [])
    pure (.conditional (.mk (.written [] gap) first) yes no)) <|>
  (do
    let gap ← Blank.gap newlines
    let op ← binaryOp
    let right ← between (Blank.gap newlines) (nested newlines) (pure [])
    pure (.binary (.mk (.written [] gap) first) op right)) <|>
  pure first

/-- A value with the steps behind it. -/
def selected (base : Node) (steps : List Step) : Node :=
  if steps.isEmpty then base else .select (.mk (.written [] []) base) steps

/-- A value with the last of the signs in front of it. -/
def withSign (ops : List UnaryOp) (operand : Node) : Node :=
  match ops.getLast? with
  | some op => .unary op (.mk (.written [] []) operand)
  | none => operand

/-- An expression without what is around it. -/
def expression (nested : Nested) : Nested := fun newlines => do
  let ops ← Scan.many unaryOp
  let (base, grouped) ← term nested
  let newlines := newlines || grouped
  let steps ← Scan.many (step nested newlines)
  operation nested newlines (withSign ops (selected base steps))

/-- Expressions that are nested at most `depth` deep. -/
def expressionUpTo : Nat → Nested
  | 0 => fun _ => failure
  | depth + 1 => expression (expressionUpTo depth)

end Grammar

/-- An expression without what is around it. -/
def node : Scan Node := fun cs =>
  Grammar.expressionUpTo (cs.length + 1) false cs

end TerraformPins.Hcl
