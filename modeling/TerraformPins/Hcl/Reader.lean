import TerraformPins.Hcl.Grammar

/-!
# Reading HCL documents

A body is a sequence of attributes and blocks, each on a line of its own; the last line of the text
may lack its end. No attribute may occur twice in one body. The braces of a block hold either
lines or, on the line of the block, at most one attribute.

Blocks are nested less deep than the text is long, which bounds the recursion.

## Main definitions

* `Reader.structureUpTo`: an attribute or a block
* `Reader.lines`: a body
* `Body.read?`: a document
-/

namespace TerraformPins.Hcl

namespace Reader

/-- An attribute without its layout. -/
def assignment : Scan Structure := do
  let word ← identifier
  let gap ← Blank.inline
  let _ ← Scan.exactly ['=']
  let value ← Grammar.between Blank.inline node (pure [])
  pure (.attr {} word (some gap) value)

/-- A label of a block. -/
def label : Scan Label :=
  (do
    let _ ← Scan.exactly ['"']
    let text ← Scan.optional Quoted.part
    let _ ← Scan.exactly ['"']
    let after ← Blank.inline
    pure ⟨true, text.getD [], after⟩) <|>
  (do
    let text ← identifier
    let after ← Blank.inline
    pure ⟨false, text, after⟩)

/-- Blank space up to the end of a line, with a line comment if there is one. -/
def lineRest : Scan Chars := do
  let gap ← Blank.inline
  let comment ← Scan.optional Blank.lineComment
  pure (gap ++ comment.getD [])

/-- A structure on a line of its own, and whether the line has an end. -/
def line (inner : Scan Structure) : Scan (Structure × Bool) := do
  let before ← Blank.across
  let item ← inner
  let after ← lineRest
  let ends ← (fun _ => true) <$> Blank.lineEnd <|> (fun _ => false) <$> Scan.atEnd
  pure (item.withLayout (.written before after), ends)

/-- Whether no attribute occurs twice. -/
def distinctKeys (items : List Structure) : Bool :=
  let keys := items.filterMap fun
    | .attr _ key _ _ => some key
    | .block .. => none
  keys.eraseDups.length == keys.length

/-- Structures on lines of their own, and whether the last line has an end. -/
def lines (inner : Scan Structure) : Scan (List Structure × Bool) := do
  let found ← Scan.many (line inner)
  let items := found.map (·.1)
  guard (distinctKeys items)
  pure (items, found.all (·.2))

/-- The body of a block that begins on the next line. -/
def linesBody (inner : Scan Structure) : Scan Body := do
  let opening ← lineRest
  let _ ← Blank.lineEnd
  let (items, ends) ← lines inner
  let closing ← Blank.across
  pure ⟨⟨opening, closing, false, ends⟩, items⟩

/-- The body of a block that is written on one line. -/
def rowBody : Scan Body :=
  (do
    let before ← Blank.inline
    let item ← assignment
    let after ← Blank.inline
    pure ⟨⟨[], [], true, true⟩, [item.withLayout (.written before after)]⟩) <|>
  (do
    let closing ← Blank.inline
    pure ⟨⟨[], closing, true, true⟩, []⟩)

/-- A block without its layout. -/
def block (inner : Scan Structure) : Scan Structure := do
  let word ← identifier
  let gap ← Blank.inline
  let labels ← Scan.many label
  let _ ← Scan.exactly ['{']
  let body ← linesBody inner <|> rowBody
  let _ ← Scan.exactly ['}']
  pure (.block {} word gap labels body.frame body.items)

/-- An attribute or a block whose blocks are nested at most `depth` deep. -/
def structureUpTo : Nat → Scan Structure
  | 0 => failure
  | depth + 1 => assignment <|> block (structureUpTo depth)

/-- A document. -/
def document : Scan Body := fun cs =>
  (do
    let (items, ends) ← lines (structureUpTo (cs.length + 1))
    let closing ← Blank.across
    Scan.atEnd
    pure ⟨⟨[], closing, false, ends⟩, items⟩ : Scan Body) cs

end Reader

/-- The document that a text is, or `none` if it is not HCL. -/
def Body.read? (cs : Chars) : Option Body :=
  Scan.all? Reader.document cs

end TerraformPins.Hcl
