import TerraformPins.Document.Site

/-!
# Writing a version

A version that is there is replaced inside its layout. A version that is missing is added: to a
block as an attribute on a line of its own behind the `source` attribute, or first, indented like
the other structures; to an object as its last entry.

## Main definitions

* `Expr.retext`: a quoted string in the place of an expression
* `Body.setAttribute`: an attribute of a block with a new value
* `setVersionEntry`: the `version` entry of an object with a new value
-/

namespace TerraformPins.Hcl

/-- The quoted string `value` in the layout of an expression. -/
def Expr.retext (e : Expr) (value : Chars) : Expr :=
  .mk e.layout (.text value)

/-- The blank space behind the last line end in front of something, if there is nothing else. -/
def Layout.indentation? (layout : Layout) : Option Chars :=
  layout.before.bind fun before =>
    let line := (splitAll (· == '\n') before).getLastD []
    if line.all isBlank then some line else none

/-- The indentation where nothing shows a better one. -/
def standardIndent : Chars := [' ', ' ']

/-- A block on one line is spread over lines; what stood around its attribute is given up. -/
def Body.spread (body : Body) : Body :=
  if body.frame.oneLine then
    { frame := { body.frame with oneLine := false }
      items := body.items.map (·.withLayout (.written standardIndent [])) }
  else body

/-- Gives the value of the first attribute `key` the text `value`; `none` if there is no such
attribute. -/
def retextAttribute? (key value : Chars) : List Structure → Option (List Structure)
  | [] => none
  | .attr layout k gap e :: rest =>
    if k = key then some (.attr layout k gap (e.retext value) :: rest)
    else (retextAttribute? key value rest).map (.attr layout k gap e :: ·)
  | item :: rest => (retextAttribute? key value rest).map (item :: ·)

/-- Whether a structure is the `source` attribute. -/
def Structure.isSource (s : Structure) : Bool :=
  (s.valueOf? Document.sourceKey).isSome

/-- Puts `item` behind the first member that satisfies `p`, or in front of all. -/
def insertBehind (p : α → Bool) (item : α) (items : List α) : List α :=
  match items.findIdx? p with
  | some i => items.take (i + 1) ++ item :: items.drop (i + 1)
  | none => item :: items

/-- Adds an attribute to a block. -/
def Body.addAttribute (body : Body) (key value : Chars) : Body :=
  let body := body.spread
  let indent := (body.items.findSome? fun s => s.layout.indentation?).getD standardIndent
  let added := Structure.attr ⟨some indent, none⟩ key none (.mk {} (.text value))
  { body with items := insertBehind Structure.isSource added body.items }

/-- Gives the attribute `key` of a block the text `value`. -/
def Body.setAttribute (body : Body) (key value : Chars) : Body :=
  match retextAttribute? key value body.items with
  | some items => { body with items }
  | none => body.addAttribute key value

/-- Gives the value of the first entry with the key `key` the text `value`; `none` if there is no
such entry. -/
def retextAt? (key value : Chars) : List Entry → Option (List Entry)
  | [] => none
  | e :: rest =>
    if e.keyText? = some key then some (.mk e.key e.sign (e.value.retext value) e.stop :: rest)
    else (retextAt? key value rest).map (e :: ·)

/-- The entry `version` that follows `last`, and what becomes of `last`. The new entry has the sign
and the stop of `last` and stands in front of the brace in its place. -/
def entryAfter (last : Entry) (value : Chars) : Entry × Entry :=
  let key (before : Option Chars) : Expr := .mk ⟨before, none⟩ (.name Document.versionKey)
  match last.stop with
  | .newline =>
    (last, .mk (key last.key.layout.indentation?) last.sign (.mk {} (.text value)) .newline)
  | .comma =>
    (last, .mk (key last.key.layout.before) last.sign (.mk {} (.text value)) .comma)
  | .brace =>
    let layout := last.value.layout
    (.mk last.key last.sign (last.value.withLayout ⟨layout.before, some []⟩) .comma,
      .mk (key last.key.layout.before) last.sign (.mk ⟨none, layout.after⟩ (.text value)) .brace)

/-- Adds the entry `version` to an object. -/
def addVersionEntry (entries : List Entry) (value : Chars) : List Entry :=
  match entries.getLast? with
  | none => [.mk (.mk {} (.name Document.versionKey)) .equals (.mk {} (.text value)) .brace]
  | some last =>
    let (last, added) := entryAfter last value
    entries.dropLast ++ [last, added]

/-- Gives the entry `version` of an object the text `value`. -/
def setVersionEntry (entries : List Entry) (value : Chars) : List Entry :=
  match retextAt? Document.versionKey value entries with
  | some entries => entries
  | none => addVersionEntry entries value

/-- Gives the version in the value of a provider entry the text `value`. -/
def Expr.setProviderVersion (e : Expr) (value : Chars) : Expr :=
  match e.node with
  | .object entries closing => .mk e.layout (.object (setVersionEntry entries value) closing)
  | _ => e.retext value

end TerraformPins.Hcl
