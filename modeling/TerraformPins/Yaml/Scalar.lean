import TerraformPins.Hex
import TerraformPins.Yaml.Cursor

/-!
# Scalars of a YAML text

Reading the three kinds of scalars: plain ones, which end where something else begins, quoted ones
and the literal and folded blocks of indented lines.

## Main definitions

* `Style`: how a scalar is written
* `plain?`, `quoted?`, `block?`: reading a scalar
-/

namespace TerraformPins.Yaml

/-- How a scalar is written. -/
inductive Style where
  | plain
  | quoted
  | literal
  | folded
  deriving DecidableEq, Repr, Inhabited

namespace Scalar

/-! ### Plain scalars -/

/-- The characters that have a meaning in lists and mappings in brackets. -/
def isFlowMark (c : Char) : Bool :=
  c == ',' || c == '[' || c == ']' || c == '{' || c == '}'

/-- A piece of a plain scalar without blanks. Inside brackets, a colon in front of a mark is an
error. -/
def plainPiece? (flow : Bool) : List Char → Option (List Char × List Char)
  | [] => some ([], [])
  | c :: rest =>
    if isSpaceOrTab c || isBreak c then some ([], c :: rest)
    else if c == ':' && flow && rest.head?.any (fun d => isFlowMark d || d == '?') then none
    else if c == ':' && startsBlank rest then some ([], c :: rest)
    else if flow && isFlowMark c then some ([], c :: rest)
    else (plainPiece? flow rest).map fun (taken, rest) => (c :: taken, rest)

/-- Goes on in a plain scalar: `taken` is its text so far and `gap` the space behind it. Returns the
text, whether a line break stands behind it, and the place there. -/
def plainFrom? (flow : Bool) (indent : Nat) (taken : List Char) (gap : Gap) (c : Cursor) :
    Nat → Option (List Char × Bool × Cursor)
  | 0 => some (taken, gap.broken, c)
  | fuel + 1 =>
    if c.atDocumentMark || c.rest.head? == some '#' then some (taken, gap.broken, c)
    else
      match plainPiece? flow c.rest with
      | none => none
      | some (piece, rest) =>
        let taken' := if piece.isEmpty then taken else taken ++ gap.text ++ piece
        let gap := if piece.isEmpty then gap else {}
        let c := c.goTo rest
        if !startsBlank rest || rest.isEmpty then some (taken', gap.broken, c)
        else
          match c.gap? indent {} with
          | none => none
          | some (gap, c) =>
            if !flow && c.column < indent then some (taken', gap.broken, c)
            else plainFrom? flow indent taken' gap c fuel

/-- A plain scalar whose lines have to begin at the column `indent` or behind it. -/
def plain? (flow : Bool) (indent : Nat) (c : Cursor) : Option (List Char × Bool × Cursor) :=
  plainFrom? flow indent [] {} c (c.rest.length + 1)

/-! ### Quoted scalars -/

/-- A piece of a scalar in single quotes without blanks. -/
def singlePiece : List Char → List Char × List Char
  | '\'' :: '\'' :: rest =>
    let (taken, rest) := singlePiece rest
    ('\'' :: taken, rest)
  | '\'' :: rest => ([], '\'' :: rest)
  | c :: rest =>
    if isSpaceOrTab c || isBreak c then ([], c :: rest)
    else
      let (taken, rest) := singlePiece rest
      (c :: taken, rest)
  | [] => ([], [])

/-- What a character behind a backslash stands for. -/
def escaped? (c : Char) : Option Char :=
  if c = '0' then some '\x00'
  else if c = 'a' then some '\x07'
  else if c = 'b' then some '\x08'
  else if c = 't' ∨ c = '\t' then some '\t'
  else if c = 'n' then some '\n'
  else if c = 'v' then some '\x0b'
  else if c = 'f' then some '\x0c'
  else if c = 'r' then some '\r'
  else if c = 'e' then some '\x1b'
  else if c = ' ' ∨ c = '"' ∨ c = '/' ∨ c = '\\' then some c
  else if c = 'N' then some '\u0085'
  else if c = '_' then some '\u00a0'
  else if c = 'L' then some '\u2028'
  else if c = 'P' then some '\u2029'
  else none

/-- A piece of a scalar in double quotes without blanks, and whether it ends with an escaped line
break, which is still ahead then. -/
def doublePiece? : List Char → Option (List Char × Bool × List Char)
  | [] => some ([], false, [])
  | '\\' :: 'x' :: a :: b :: rest => do
    let c ← codePoint? [a, b]
    let (taken, folded, rest) ← doublePiece? rest
    pure (c :: taken, folded, rest)
  | '\\' :: 'u' :: a :: b :: c :: d :: rest => do
    let c ← codePoint? [a, b, c, d]
    let (taken, folded, rest) ← doublePiece? rest
    pure (c :: taken, folded, rest)
  | '\\' :: 'U' :: a :: b :: c :: d :: e :: f :: g :: h :: rest => do
    let c ← codePoint? [a, b, c, d, e, f, g, h]
    let (taken, folded, rest) ← doublePiece? rest
    pure (c :: taken, folded, rest)
  | ['\\'] => none
  | '\\' :: c :: rest =>
    if isBreak c then some ([], true, c :: rest)
    else do
      let c ← escaped? c
      let (taken, folded, rest) ← doublePiece? rest
      pure (c :: taken, folded, rest)
  | c :: rest =>
    if c == '"' || isSpaceOrTab c || isBreak c then some ([], false, c :: rest)
    else do
      let (taken, folded, rest) ← doublePiece? rest
      pure (c :: taken, folded, rest)

/-- Goes on in a quoted scalar behind `taken`. -/
def quotedFrom? (quote : Char) (taken : List Char) (c : Cursor) :
    Nat → Option (List Char × Cursor)
  | 0 => none
  | fuel + 1 =>
    if c.atDocumentMark || c.rest.isEmpty then none
    else do
      let (piece, folded, rest) ←
        if quote = '\'' then
          let (piece, rest) := singlePiece c.rest
          some (piece, false, rest)
        else doublePiece? c.rest
      let c := c.goTo rest
      let taken := taken ++ piece
      if !folded && rest.head? == some quote then pure (taken, c.skip)
      else
        let (start, c) : Gap × Cursor :=
          if folded then ({ broken := true }, c.skipBreak) else ({}, c)
        let (gap, c) ← c.gap? 0 start
        quotedFrom? quote (taken ++ gap.text) c fuel

/-- A scalar in quotes, with the cursor at the opening quote. -/
def quoted? (quote : Char) (c : Cursor) : Option (List Char × Cursor) :=
  quotedFrom? quote [] c.skip (c.rest.length + 1)

/-! ### Blocks -/

/-- What becomes of the line breaks at the end of a block. -/
inductive Chomp where
  | strip
  | clip
  | keep
  deriving DecidableEq, Repr

/-- The chomping mark and the indentation in the head of a block, in either order. -/
def blockHead? (c : Cursor) : Option (Chomp × Nat × Cursor) :=
  let chomp (c : Cursor) : Option Chomp × Cursor :=
    match c.rest with
    | '+' :: _ => (some .keep, c.skip)
    | '-' :: _ => (some .strip, c.skip)
    | _ => (none, c)
  let digit (c : Cursor) : Option (Nat × Cursor) :=
    match c.rest with
    | d :: _ =>
      if d = '0' then none
      else if d.isDigit then some (d.toNat - '0'.toNat, c.skip)
      else some (0, c)
    | [] => some (0, c)
  let (early, c) := chomp c
  (digit c).map fun (n, c) =>
    match early with
    | some e => (e, n, c)
    | none =>
      if n = 0 then (.clip, 0, c)
      else
        let (late, c) := chomp c
        (late.getD .clip, n, c)

/-- Skips the indentation of a line and empty lines: at most `indent` spaces in each, or all of them
as long as `indent` is not known, which `none` says. Returns the line breaks, the greatest
indentation seen and the place. -/
def blockGap? (indent : Option Nat) (breaks : List Char) (widest : Nat) (c : Cursor) :
    Nat → Option (List Char × Nat × Cursor)
  | 0 => some (breaks, widest, c)
  | fuel + 1 =>
    let inside (column : Nat) : Bool := indent.all (column < ·)
    let spaces := (c.rest.takeWhile (· == ' ')).length
    let c := c.skip (match indent with
      | some n => min spaces (n - c.column)
      | none => spaces)
    let widest := max widest c.column
    if inside c.column && c.rest.head? == some '\t' then none
    else if c.atBreak then
      let (taken, c) := c.takeBreak
      blockGap? indent (breaks ++ taken) widest c fuel
    else some (breaks, widest, c)

/-- Goes on in a block with its lines: `taken` is the text so far, `last` the line break behind it,
`breaks` the empty lines behind that, and `blank` says whether the line before began with a blank.
-/
def blockFrom? (folded : Bool) (indent : Nat) (taken last breaks : List Char) (blank : Bool)
    (c : Cursor) : Nat → Option (List Char × List Char × List Char × Cursor)
  | 0 => some (taken, last, breaks, c)
  | fuel + 1 =>
    if c.column != indent || c.rest.isEmpty then some (taken, last, breaks, c)
    else
      let startsBlank := c.rest.head?.any isSpaceOrTab
      let joint :=
        if folded && last.head? == some '\n' && !blank && !startsBlank then
          if breaks.isEmpty then [' '] else []
        else last
      let line := c.rest.takeWhile (!isBreak ·)
      let (last, c) := (c.skip line.length).takeBreak
      match blockGap? (some indent) [] 0 c (c.rest.length + 1) with
      | none => none
      | some (more, _, c) =>
        blockFrom? folded indent (taken ++ joint ++ breaks ++ line) last more startsBlank c fuel

/-- A block, with the cursor behind its mark. `outer` is the column of the block around it, if there
is one. -/
def block? (folded : Bool) (outer : Option Nat) (c : Cursor) : Option (List Char × Cursor) := do
  let (chomp, increment, c) ← blockHead? c
  let c := c.skipWhile isSpaceOrTab
  let c := if c.rest.head? == some '#' then c.skipWhile (!isBreak ·) else c
  if !c.rest.isEmpty && !c.atBreak then none
  else
    let c := c.skipBreak
    let least := match outer with
      | some n => n + 1
      | none => 0
    let known := if increment = 0 then none else some (outer.getD 0 + increment)
    let (breaks, widest, c) ← blockGap? known [] 0 c (c.rest.length + 1)
    let indent := known.getD (max 1 (max least widest))
    let (taken, last, breaks, c) ←
      blockFrom? folded indent [] [] breaks false c (c.rest.length + 1)
    let tail := match chomp with
      | .strip => []
      | .clip => last
      | .keep => last ++ breaks
    pure (taken ++ tail, c)

end Scalar

end TerraformPins.Yaml
