import TerraformPins.Yaml.Node
import TerraformPins.Yaml.Number

/-!
# What YAML nodes say

A field that holds text takes any scalar as it is written. A field that holds one text or several
reads a lone plain scalar as a value first: nothing, a truth value or a number, whose text is then
that of the value.

## Main definitions

* `Value`: what a plain scalar means
* `Node.text?`, `Node.optionalText?`, `Node.flag?`: reading a field
* `Node.texts?`: one text or a list of texts
* `Node.fields?`: the fields of a mapping
-/

namespace TerraformPins.Yaml

/-- What a plain scalar means. -/
inductive Value where
  | nothing
  | truth (b : Bool)
  | integer (n : Int)
  /-- A real number, as its text. -/
  | real (digits : List Char)
  | other
  deriving DecidableEq, Repr, Inhabited

namespace Value

/-- The words for nothing. -/
def isNull (cs : List Char) : Bool :=
  [['~'], ['n', 'u', 'l', 'l'], ['N', 'u', 'l', 'l'], ['N', 'U', 'L', 'L']].contains cs

/-- The truth value that a word denotes. -/
def truth? (cs : List Char) : Option Bool :=
  if ["true", "True", "TRUE"].any (·.toList == cs) then some true
  else if ["false", "False", "FALSE"].any (·.toList == cs) then some false
  else none

/-- The integer that a text denotes, if it fits 128 bits. -/
def integer? (cs : List Char) : Option Int :=
  (Number.integer? cs).filter Number.fits128

/-- What a plain scalar with the given text means. -/
def ofPlain (cs : List Char) : Value :=
  if cs.isEmpty || isNull cs then .nothing
  else
    match truth? cs with
    | some b => .truth b
    | none =>
      match integer? cs with
      | some n => .integer n
      | none =>
        if Number.isPadded cs then .other
        else
          match Number.realText? cs with
          | some digits => .real digits
          | none => .other

/-- The text of an integer, unless it needs more than 64 bits. -/
def integerText? (n : Int) : Option String :=
  if Number.fits64 n then some (toString n) else none

end Value

namespace Node

/-- The tags of the scalar types. -/
def standardTag (name : String) : List Char :=
  "tag:yaml.org,2002:".toList ++ name.toList

/-- Whether a tag is one of the document's own. -/
def isLocalTag (tag : Option (List Char)) : Bool :=
  tag.any fun t => t.head? == some '!'

/-- The text of any scalar, as written. -/
def text? : Node → Option String
  | .scalar _ _ text => some (String.ofList text)
  | _ => none

/-- The text of a scalar, or that there is none; anything but a scalar is an error. -/
def optionalText? : Node → Option (Option String)
  | .scalar tag style text =>
    if style ≠ .plain then some (some (String.ofList text))
    else
      match tag with
      | none =>
        if text.isEmpty || Value.isNull text then some none else some (some (String.ofList text))
      | some tag =>
        if tag = standardTag "null" then if Value.isNull text then some none else none
        else some (some (String.ofList text))
  | _ => none

/-- A truth value, written plainly. -/
def flag? : Node → Option Bool
  | .scalar tag style text =>
    if style = .plain ∨ (style = .literal ∧ tag = some (standardTag "bool")) then Value.truth? text
    else none
  | _ => none

/-- What a scalar says as one text or none, read as a value first. -/
def valueText? (tag : Option (List Char)) (style : Style) (text : List Char) :
    Option (Option String) :=
  let real (text : List Char) : Option (Option String) :=
    (Number.realText? text).map fun t => some (String.ofList t)
  let word (b : Bool) : Option String := some (if b then "true" else "false")
  match tag with
  | some tag =>
    if tag.head? = some '!' then none
    else if tag = standardTag "bool" then (Value.truth? text).map word
    else if tag = standardTag "int" then
      (Value.integer? text).bind fun n => (Value.integerText? n).map some
    else if tag = standardTag "float" then real text
    else if tag = standardTag "null" then if Value.isNull text then some none else none
    else some (some (String.ofList text))
  | none =>
    if style ≠ .plain then some (some (String.ofList text))
    else
      match Value.ofPlain text with
      | .nothing => some none
      | .truth b => some (word b)
      | .integer n => (Value.integerText? n).map some
      | .real t => some (some (String.ofList t))
      | .other => some (some (String.ofList text))

/-- One text or a list of texts. In a list every scalar is taken as it is written. -/
def texts? : Node → Option (List String)
  | .scalar tag style text => (valueText? tag style text).map Option.toList
  | .list tag items => if isLocalTag tag then none else items.mapM text?
  | .mapping .. => none

/-- Whether nothing is written where a node is expected. -/
def isEmptyPlain : Node → Bool
  | .scalar _ style text => style == .plain && text.isEmpty
  | _ => false

/-- The items of a list; where nothing is written, there are none. -/
def items? : Node → Option (List Node)
  | .list _ items => some items
  | node => if node.isEmptyPlain then some [] else none

/-- The fields of a mapping, all of which have to be known and different. Where nothing is written,
there are none. -/
def fields? (known : List String) : Node → Option (List (String × Node))
  | .mapping _ pairs => do
    let fields ← pairs.mapM fun (key, value) => key.text?.map (·, value)
    let names := fields.map (·.1)
    if names.all known.contains && names.eraseDups.length == names.length then pure fields
    else none
  | node => if node.isEmptyPlain then some [] else none

end Node

/-- Reads the field `name` with `read`, or gives `absent` if there is no such field. -/
def field? (fields : List (String × Node)) (name : String) (read : Node → Option α) (absent : α) :
    Option α :=
  match fields.find? (·.1 == name) with
  | some (_, node) => read node
  | none => some absent

end TerraformPins.Yaml
