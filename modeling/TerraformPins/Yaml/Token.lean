import TerraformPins.Yaml.Scalar

/-!
# Tokens of a YAML text

Outside brackets, indentation opens and closes lists and mappings, so the lexer inserts tokens for
their beginnings and ends. A key of a mapping is recognised only at the colon behind it; until then
the lexer remembers where it might begin. Such a possible key has to lie in one line and be no
longer than 1024 characters, and one that begins at the column of a mapping is required.

## Main definitions

* `Token`: the tokens
* `Lexer`: the state between two tokens
* `Token.ofText?`: the tokens of a text
-/

namespace TerraformPins.Yaml

/-- The tokens of a YAML text. -/
inductive Token where
  | version (major minor : Nat)
  | tagHandle (handle lead : List Char)
  | documentStart
  | documentEnd
  | listStart
  | mappingStart
  | blockEnd
  | listOpen
  | listClose
  | mappingOpen
  | mappingClose
  | item
  | comma
  | key
  | value
  | alias (name : List Char)
  | anchor (name : List Char)
  | tag (handle suffix : List Char)
  | scalar (style : Style) (text : List Char)
  deriving DecidableEq, Repr, Inhabited

/-- A place where a key may begin. -/
structure PossibleKey where
  required : Bool
  /-- The number of the token that would be part of the key. -/
  token : Nat
  place : Cursor

/-- The state of the lexer between two tokens. -/
structure Lexer where
  cursor : Cursor
  tokens : Array Token := #[]
  /-- The columns of the open lists and mappings that are made by indentation, the inner one first.
  -/
  columns : List Nat := []
  /-- The possible key of each level of brackets, the inner one first. -/
  keys : List (Option PossibleKey) := [none]
  /-- Whether a key may begin here. -/
  keyAllowed : Bool := true

namespace Lexer

/-- Whether the cursor is inside brackets. -/
def inFlow (s : Lexer) : Bool :=
  1 < s.keys.length

/-- Adds a token. -/
def push (s : Lexer) (t : Token) : Lexer :=
  { s with tokens := s.tokens.push t }

/-- Goes `n` characters on and adds a token. -/
def emit (s : Lexer) (t : Token) (n : Nat := 1) : Lexer :=
  { s.push t with cursor := s.cursor.skip n }

/-- Says whether a key may begin at the next place. -/
def allowKey (s : Lexer) (allowed : Bool) : Lexer :=
  { s with keyAllowed := allowed }

/-- Whether the cursor is in the column of the innermost list or mapping made by indentation. -/
def atColumn (s : Lexer) : Bool :=
  s.columns.head? == some s.cursor.column

/-- Gives up the possible key of this level, which must not be a required one. -/
def dropKey? (s : Lexer) : Option Lexer :=
  match s.keys with
  | some k :: rest => if k.required then none else some { s with keys := none :: rest }
  | _ => some s

/-- Remembers that a key may begin here. -/
def saveKey? (s : Lexer) : Option Lexer :=
  if s.keyAllowed then
    (s.dropKey?).map fun s =>
      { s with keys := some ⟨!s.inFlow && s.atColumn, s.tokens.size, s.cursor⟩ :: s.keys.drop 1 }
  else some s

/-- Adds a token for each list and mapping that ends because the column is to its left. -/
def closeBeyond (s : Lexer) (column : Option Nat) : Lexer :=
  if s.inFlow then s
  else
    let ends := s.columns.takeWhile fun n => column.all (· < n)
    { s with
      columns := s.columns.drop ends.length
      tokens := s.tokens ++ Array.replicate ends.length Token.blockEnd }

/-- Inserts a token in front of the token with the number `at`. -/
def insertAt (s : Lexer) (place : Nat) (t : Token) : Lexer :=
  { s with tokens := s.tokens.extract 0 place ++ #[t] ++ s.tokens.extract place s.tokens.size }

/-- Opens a list or a mapping at `column`, if that is to the right of the innermost one. -/
def openAt (s : Lexer) (column place : Nat) (t : Token) : Lexer :=
  if s.inFlow || s.columns.head?.any (column ≤ ·) then s
  else { s.insertAt place t with columns := column :: s.columns }

/-- Skips blanks, comments and line breaks. Tabs are skipped inside brackets and where no key may
begin; behind a line break outside brackets a key may begin. -/
def skipBlank (s : Lexer) : Nat → Lexer
  | 0 => s
  | fuel + 1 =>
    let tabs := s.inFlow || !s.keyAllowed
    let c := if s.cursor.index == 0 && s.cursor.rest.head? == some '\ufeff'
      then s.cursor.skip else s.cursor
    let c := c.skipWhile fun x => x == ' ' || (tabs && x == '\t')
    let c := if c.rest.head? == some '#' then c.skipWhile (!isBreak ·) else c
    if c.atBreak then
      skipBlank { s with cursor := c.skipBreak, keyAllowed := s.keyAllowed || !s.inFlow } fuel
    else { s with cursor := c }

/-! ### Directives -/

/-- The handle of a tag: an exclamation mark, or a name between two. -/
def handle? : List Char → Option (List Char × List Char)
  | '!' :: rest =>
    let name := rest.takeWhile isNameChar
    let rest := rest.drop name.length
    match rest with
    | '!' :: rest => some ('!' :: name ++ ['!'], rest)
    | _ => some ('!' :: name, rest)
  | _ => none

/-- The characters of a tag; `verbatim` allows commas and brackets as well. -/
def isTagChar (verbatim : Bool) (c : Char) : Bool :=
  isNameChar c || [';', '/', '?', ':', '@', '&', '=', '+', '$', '.', '!', '~', '*', '\'', '(',
    ')'].contains c || (verbatim && (c == ',' || c == '[' || c == ']'))

/-- The bytes of a tag: characters, or two hexadecimal digits behind a percent sign. -/
def tagText? (verbatim : Bool) : List Char → Option (List Char × List Char)
  | '%' :: a :: b :: rest => do
    let c ← codePoint? [a, b]
    let (taken, rest) ← tagText? verbatim rest
    pure (c :: taken, rest)
  | c :: rest =>
    if c == '%' then none
    else if isTagChar verbatim c then
      (tagText? verbatim rest).map fun (taken, rest) => (c :: taken, rest)
    else some ([], c :: rest)
  | [] => some ([], [])

/-- The number that a run of digits denotes. -/
def digits? (cs : List Char) : Option (Nat × List Char) :=
  let digits := cs.takeWhile Char.isDigit
  if digits.isEmpty ∨ 9 < digits.length then none
  else some (digits.foldl (fun n c => 10 * n + (c.toNat - '0'.toNat)) 0, cs.drop digits.length)

/-- A text without the spaces and tabs at its front. -/
def skipSpaces (cs : List Char) : List Char :=
  cs.dropWhile isSpaceOrTab

/-- A directive behind its percent sign. -/
def directive? (cs : List Char) : Option (Token × List Char) := do
  let name := cs.takeWhile isNameChar
  let rest := cs.drop name.length
  if !startsBlank rest then none
  else if name = ['Y', 'A', 'M', 'L'] then do
    let (major, rest) ← digits? (skipSpaces rest)
    let rest ← match rest with
      | '.' :: rest => some rest
      | _ => none
    let (minor, rest) ← digits? rest
    pure (.version major minor, rest)
  else if name = ['T', 'A', 'G'] then do
    let (handle, rest) ← handle? (skipSpaces rest)
    if handle ≠ ['!'] ∧ handle.getLast? ≠ some '!' then none
    else if !(rest.head?.any isSpaceOrTab) then none
    else do
      let (lead, rest) ← tagText? true (skipSpaces rest)
      if lead.isEmpty ∨ !startsBlank rest then none else pure (.tagHandle handle lead, rest)
  else none

/-- A directive and the rest of its line. -/
def fetchDirective? (s : Lexer) : Option Lexer := do
  let s ← (s.closeBeyond none).dropKey?
  let (token, rest) ← directive? (s.cursor.rest.drop 1)
  let c := (s.cursor.goTo rest).skipWhile isSpaceOrTab
  let c := if c.rest.head? == some '#' then c.skipWhile (!isBreak ·) else c
  if !c.rest.isEmpty && !c.atBreak then none
  else pure { s.push token with cursor := c.skipBreak, keyAllowed := false }

/-! ### Marks -/

/-- The mark of the beginning or the end of a document. -/
def fetchDocumentMark? (s : Lexer) (t : Token) : Option Lexer := do
  let s ← (s.closeBeyond none).dropKey?
  pure ((s.emit t 3).allowKey false)

/-- An opening bracket. -/
def fetchOpen? (s : Lexer) (t : Token) : Option Lexer := do
  let s ← s.saveKey?
  pure (({ s with keys := none :: s.keys }.emit t).allowKey true)

/-- A closing bracket. -/
def fetchClose? (s : Lexer) (t : Token) : Option Lexer := do
  let s ← s.dropKey?
  let keys := if s.inFlow then s.keys.drop 1 else s.keys
  pure (({ s with keys }.emit t).allowKey false)

/-- A comma. -/
def fetchComma? (s : Lexer) : Option Lexer := do
  let s ← s.dropKey?
  pure ((s.emit .comma).allowKey true)

/-- The dash of a list item. -/
def fetchItem? (s : Lexer) : Option Lexer :=
  if !s.inFlow && !s.keyAllowed then none
  else do
    let s := s.openAt s.cursor.column s.tokens.size .listStart
    let s ← s.dropKey?
    pure ((s.emit .item).allowKey true)

/-- The mark of a key that is not recognised by its colon. -/
def fetchKey? (s : Lexer) : Option Lexer :=
  if !s.inFlow && !s.keyAllowed then none
  else do
    let s := s.openAt s.cursor.column s.tokens.size .mappingStart
    let s ← s.dropKey?
    pure ((s.emit .key).allowKey !s.inFlow)

/-- Whether a possible key can still be one at the cursor: it lies in the same line and is not too
long. -/
def PossibleKey.fits (k : PossibleKey) (c : Cursor) : Bool :=
  k.place.line == c.line && c.index ≤ k.place.index + 1024

/-- The colon in front of a value. If a key may have begun, its tokens are put where it began. -/
def fetchValue? (s : Lexer) : Option Lexer :=
  match s.keys with
  | some k :: rest =>
    if PossibleKey.fits k s.cursor then
      let s := { s with keys := none :: rest }
      let s := s.insertAt k.token .key
      let s := s.openAt k.place.column k.token .mappingStart
      some ((s.emit .value).allowKey false)
    else if k.required then none
    else complex { s with keys := none :: rest }
  | _ => complex s
where
  complex (s : Lexer) : Option Lexer :=
    if !s.inFlow && !s.keyAllowed then none
    else
      let s := s.openAt s.cursor.column s.tokens.size .mappingStart
      some ((s.emit .value).allowKey !s.inFlow)

/-! ### Names, tags and scalars -/

/-- The name of an anchor or an alias behind its mark. -/
def fetchName? (s : Lexer) (make : List Char → Token) : Option Lexer := do
  let s ← s.saveKey?
  let name := (s.cursor.rest.drop 1).takeWhile isNameChar
  let rest := s.cursor.rest.drop (name.length + 1)
  let closed := startsBlank rest ||
    rest.head?.any fun c => ['?', ':', ',', ']', '}', '%', '@', '\x60'].contains c
  if name.isEmpty || !closed then none
  else pure ((s.emit (make name) (name.length + 1)).allowKey false)

/-- A tag, verbatim in angle brackets or with a handle. -/
def tag? : List Char → Option (Token × List Char)
  | '!' :: '<' :: rest => do
    let (suffix, rest) ← tagText? true rest
    match rest with
    | '>' :: rest => if suffix.isEmpty then none else pure (.tag [] suffix, rest)
    | _ => none
  | cs => do
    let (handle, rest) ← handle? cs
    if 1 < handle.length ∧ handle.getLast? = some '!' then do
      let (suffix, rest) ← tagText? false rest
      if suffix.isEmpty then none else pure (.tag handle suffix, rest)
    else do
      let (more, rest) ← tagText? false rest
      let suffix := handle.drop 1 ++ more
      pure (if suffix.isEmpty then .tag [] ['!'] else .tag ['!'] suffix, rest)

/-- A tag and what ends it. -/
def fetchTag? (s : Lexer) : Option Lexer := do
  let s ← s.saveKey?
  let (token, rest) ← tag? s.cursor.rest
  if startsBlank rest || (s.inFlow && rest.head? == some ',') then
    pure { s.push token with cursor := s.cursor.goTo rest, keyAllowed := false }
  else none

/-- A literal or folded block. -/
def fetchBlock? (s : Lexer) (style : Style) : Option Lexer := do
  let s ← s.dropKey?
  let (text, c) ← Scalar.block? (style == .folded) s.columns.head? s.cursor.skip
  pure { s.push (.scalar style text) with cursor := c, keyAllowed := true }

/-- A scalar in quotes. -/
def fetchQuoted? (s : Lexer) (quote : Char) : Option Lexer := do
  let s ← s.saveKey?
  let (text, c) ← Scalar.quoted? quote s.cursor
  pure { s.push (.scalar .quoted text) with cursor := c, keyAllowed := false }

/-- The first column of the lines of a plain scalar. -/
def plainIndent (s : Lexer) : Nat :=
  match s.columns.head? with
  | some n => n + 1
  | none => 0

/-- A plain scalar. -/
def fetchPlain? (s : Lexer) : Option Lexer := do
  let s ← s.saveKey?
  let (text, broken, c) ← Scalar.plain? s.inFlow s.plainIndent s.cursor
  pure { s.push (.scalar .plain text) with cursor := c, keyAllowed := broken }

/-- Whether a plain scalar may begin with `c` in front of `rest`. -/
def startsPlain (inFlow : Bool) (c : Char) (rest : List Char) : Bool :=
  !(['-', '?', ':', ',', '[', ']', '{', '}', '#', '&', '*', '!', '|', '>', '\'', '"', '%', '@',
      '\x60'].contains c) ||
    (c == '-' && !(rest.head?.any isSpaceOrTab)) ||
    (!inFlow && (c == '?' || c == ':') && !startsBlank rest)

/-- The next token, with the cursor at its first character `c`. -/
def fetch? (s : Lexer) (c : Char) (rest : List Char) : Option Lexer :=
  if s.cursor.column = 0 ∧ c = '%' then s.fetchDirective?
  else if s.cursor.atMark ['-', '-', '-'] then s.fetchDocumentMark? .documentStart
  else if s.cursor.atMark ['.', '.', '.'] then s.fetchDocumentMark? .documentEnd
  else if c = '[' then s.fetchOpen? .listOpen
  else if c = '{' then s.fetchOpen? .mappingOpen
  else if c = ']' then s.fetchClose? .listClose
  else if c = '}' then s.fetchClose? .mappingClose
  else if c = ',' then s.fetchComma?
  else if c = '-' ∧ startsBlank rest then s.fetchItem?
  else if c = '?' ∧ (s.inFlow ∨ startsBlank rest) then s.fetchKey?
  else if c = ':' ∧ (s.inFlow ∨ startsBlank rest) then s.fetchValue?
  else if c = '*' then s.fetchName? .alias
  else if c = '&' then s.fetchName? .anchor
  else if c = '!' then s.fetchTag?
  else if c = '|' ∧ !s.inFlow then s.fetchBlock? .literal
  else if c = '>' ∧ !s.inFlow then s.fetchBlock? .folded
  else if c = '\'' ∨ c = '"' then s.fetchQuoted? c
  else if startsPlain s.inFlow c rest then s.fetchPlain?
  else none

/-- Reads tokens up to the end of the text. -/
def run? (s : Lexer) : Nat → Option (List Token)
  | 0 => none
  | fuel + 1 =>
    let s := s.skipBlank (s.cursor.rest.length + 1)
    match s.cursor.rest with
    | [] => ((s.closeBeyond none).dropKey?).map fun s => s.tokens.toList
    | c :: rest =>
      match (s.closeBeyond (some s.cursor.column)).fetch? c rest with
      | none => none
      | some s => run? s fuel

end Lexer

/-- The tokens of a text, unless it is not YAML. -/
def Token.ofText? (text : List Char) : Option (List Token) :=
  if text.all isAllowed then Lexer.run? { cursor := .start text } (text.length + 1) else none

end TerraformPins.Yaml
