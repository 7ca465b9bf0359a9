import TerraformPins.Yaml.Token

/-!
# Nodes of a YAML document

A document is one node: a scalar, a list or a mapping. A node may carry a tag and may be named by an
anchor; an alias stands for the last node with its name that is complete.

## Main definitions

* `Node`: scalars, lists and mappings
* `Node.ofTokens?`: the only document of a stream of tokens
* `Node.ofText?`: the only document of a text
-/

namespace TerraformPins.Yaml

/-- A node of a document, with its tag if it has one. -/
inductive Node where
  | scalar (tag : Option (List Char)) (style : Style) (text : List Char)
  | list (tag : Option (List Char)) (items : List Node)
  | mapping (tag : Option (List Char)) (pairs : List (Node × Node))

instance : Inhabited Node := ⟨.list none []⟩

/-- The node where nothing is written. -/
def Node.empty : Node :=
  .scalar none .plain []

/-- The nodes that anchors name, the last one first; `none` while a node is not complete. -/
abbrev Anchors := List (List Char × Option Node)

/-- Reads nodes from the front of a list of tokens. -/
abbrev NodeScan := StateT (List Token × Anchors) Option

namespace NodeScan

/-- The next token, without taking it. -/
def peek : NodeScan (Option Token) := do
  pure (← get).1.head?

/-- Takes a token. -/
def skip : NodeScan Unit :=
  modify fun (tokens, anchors) => (tokens.drop 1, anchors)

/-- Takes the token `t` if it is the next one. -/
def take (t : Token) : NodeScan Bool := do
  if (← peek) == some t then
    skip
    pure true
  else pure false

/-- Records that `name` names `node`. -/
def bindAnchor (name : Option (List Char)) (node : Option Node) : NodeScan Unit :=
  match name with
  | some name => modify fun (tokens, anchors) => (tokens, (name, node) :: anchors)
  | none => pure ()

/-- The node that `name` names. -/
def lookUp (name : List Char) : NodeScan Node := do
  match (← get).2.find? (·.1 == name) with
  | some (_, some node) => pure node
  | _ => failure

/-- The prefixes that the handles of tags stand for. -/
abbrev Handles := List (List Char × List Char)

/-- The handles that need no directive. -/
def standardHandles : Handles :=
  [(['!'], ['!']), (['!', '!'], "tag:yaml.org,2002:".toList)]

/-- The tag that a handle and a suffix stand for. -/
def resolveTag? (handles : Handles) (handle suffix : List Char) : Option (List Char) :=
  if handle.isEmpty then some suffix
  else (handles.find? (·.1 == handle)).map fun (_, lead) => lead ++ suffix

/-- The anchor and the tag in front of a node, in either order. -/
def properties (handles : Handles) : NodeScan (Option (List Char) × Option (List Char)) := do
  let anchor : NodeScan (Option (List Char)) := do
    match ← peek with
    | some (.anchor name) =>
      skip
      pure (some name)
    | _ => pure none
  let tag : NodeScan (Option (List Char)) := do
    match ← peek with
    | some (.tag handle suffix) =>
      skip
      let tag ← StateT.lift (resolveTag? handles handle suffix)
      pure (some tag)
    | _ => pure none
  match ← anchor with
  | some name => pure (some name, ← tag)
  | none =>
    let tag ← tag
    pure (← if tag.isSome then anchor else pure none, tag)

/-- Where a node stands: inside brackets, or in a list or mapping made by indentation; the value of
a mapping may be a list whose items are not indented. -/
inductive Place where
  | flow
  | block
  | blockOrItems
  deriving DecidableEq

/-- A reader for nested nodes. -/
abbrev Nested := Place → NodeScan Node

/-- A nested node, or the empty node if one of `ends` follows. -/
def nodeOrEmpty (nested : Nested) (place : Place) (ends : List Token) : NodeScan Node := do
  match ← peek with
  | some t => if ends.contains t then pure .empty else nested place
  | none => nested place

/-- Repeats `step` until it finds the end. -/
def untilEnd (step : NodeScan (Option α)) : Nat → NodeScan (List α)
  | 0 => failure
  | fuel + 1 => do
    match ← step with
    | none => pure []
    | some a =>
      let more ← untilEnd step fuel
      pure (a :: more)

/-- Repeats `step` until it finds the end, at most once for each token. -/
def collect (step : NodeScan (Option α)) : NodeScan (List α) := do
  untilEnd step ((← get).1.length + 1)

/-- An item of a list made by indentation. -/
def blockItem (nested : Nested) : NodeScan (Option Node) := do
  if ← take .item then some <$> nodeOrEmpty nested .block [.item, .blockEnd]
  else if ← take .blockEnd then pure none
  else failure

/-- An item of a list that is not indented against its key. -/
def looseItem (nested : Nested) : NodeScan (Option Node) := do
  if ← take .item then some <$> nodeOrEmpty nested .block [.item, .key, .value, .blockEnd]
  else pure none

/-- A pair of a mapping made by indentation. -/
def blockPair (nested : Nested) : NodeScan (Option (Node × Node)) := do
  let ends : List Token := [.key, .value, .blockEnd]
  if ← take .key then
    let key ← nodeOrEmpty nested .blockOrItems ends
    let value ← if ← take .value then nodeOrEmpty nested .blockOrItems ends else pure .empty
    pure (some (key, value))
  else if ← take .blockEnd then pure none
  else failure

/-- What stands between two members in brackets: a comma, unless it is the first one or the end. -/
def separator (first : Bool) (close : Token) : NodeScan Unit := do
  if first || (← peek) == some close then pure ()
  else if ← take .comma then pure ()
  else failure

/-- A pair in a list in brackets, behind the mark of its key. -/
def singlePair (nested : Nested) : NodeScan Node := do
  let key ← match ← peek with
    | some .value | some .comma | some .listClose => do
      skip
      pure Node.empty
    | _ => nested .flow
  let value ← if ← take .value then nodeOrEmpty nested .flow [.comma, .listClose] else pure .empty
  pure (.mapping none [(key, value)])

/-- An item of a list in brackets. -/
def flowItem (nested : Nested) (first : Bool) : NodeScan (Option Node) := do
  separator first .listClose
  if ← take .listClose then pure none
  else if ← take .key then some <$> singlePair nested
  else some <$> nested .flow

/-- A pair of a mapping in braces. -/
def flowPair (nested : Nested) (first : Bool) : NodeScan (Option (Node × Node)) := do
  separator first .mappingClose
  if ← take .mappingClose then pure none
  else if ← take .key then
    let key ← nodeOrEmpty nested .flow [.value, .comma, .mappingClose]
    let value ← if ← take .value then nodeOrEmpty nested .flow [.comma, .mappingClose]
      else pure .empty
    pure (some (key, value))
  else
    let key ← nested .flow
    pure (some (key, .empty))

/-- Members in brackets up to the closing one; `step` is told whether it reads the first one. -/
def members (step : Bool → NodeScan (Option α)) : NodeScan (List α) := do
  match ← step true with
  | none => pure []
  | some first =>
    let more ← collect (step false)
    pure (first :: more)

/-- The content of a node with the given tag, or `none` if there is none. -/
def content? (nested : Nested) (place : Place) (tag : Option (List Char)) :
    NodeScan (Option Node) := do
  match ← peek with
  | some (.scalar style text) =>
    skip
    pure (some (.scalar (if tag = some ['!'] then none else tag) style text))
  | some .listOpen =>
    skip
    some <$> .list tag <$> members (flowItem nested)
  | some .mappingOpen =>
    skip
    some <$> .mapping tag <$> members (flowPair nested)
  | some .item =>
    if place = .blockOrItems then some <$> .list tag <$> collect (looseItem nested)
    else pure none
  | some .listStart =>
    if place = .flow then pure none
    else
      skip
      some <$> .list tag <$> collect (blockItem nested)
  | some .mappingStart =>
    if place = .flow then pure none
    else
      skip
      some <$> .mapping tag <$> collect (blockPair nested)
  | _ => pure none

/-- A node. -/
def node (handles : Handles) (nested : Nested) : Nested := fun place => do
  match ← peek with
  | some (.alias name) =>
    skip
    lookUp name
  | _ =>
    let (anchor, tag) ← properties handles
    bindAnchor anchor none
    match ← content? nested place tag with
    | some node =>
      bindAnchor anchor (some node)
      pure node
    | none =>
      if anchor.isSome || tag.isSome then
        let node := Node.scalar tag .plain []
        bindAnchor anchor (some node)
        pure node
      else failure

/-- Nodes that are nested at most `depth` deep. -/
def nodeUpTo (handles : Handles) : Nat → Nested
  | 0 => fun _ => failure
  | depth + 1 => node handles (nodeUpTo handles depth)

/-- The directives in front of a document. No handle is declared twice, and the version is 1.1 or
1.2. -/
def directives (seenVersion : Bool) (handles : Handles) : Nat → NodeScan Handles
  | 0 => failure
  | fuel + 1 => do
    match ← peek with
    | some (.version major minor) =>
      if seenVersion || major != 1 || (minor != 1 && minor != 2) then failure
      else
        skip
        directives true handles fuel
    | some (.tagHandle handle lead) =>
      if handles.any (·.1 == handle) then failure
      else
        skip
        directives seenVersion ((handle, lead) :: handles) fuel
    | _ => pure (handles ++ standardHandles)

/-- A document and everything behind it, which may be marks of its end only. A stream without
document is the empty node. -/
def document : NodeScan Node := do
  let tokens := (← get).1
  let nested (handles : Handles) := nodeUpTo handles (tokens.length + 1)
  let root ← match tokens.head? with
    | none => pure Node.empty
    | some (.version ..) | some (.tagHandle ..) | some .documentStart => do
      let handles ← directives false [] (tokens.length + 1)
      if !(← take .documentStart) then failure
      match ← peek with
      | none | some (.version ..) | some (.tagHandle ..) | some .documentStart
      | some .documentEnd => pure Node.empty
      | _ => nested handles .block
    | _ => nested standardHandles .block
  let rest := (← get).1.dropWhile (· == .documentEnd)
  if rest.isEmpty then pure root else failure

end NodeScan

/-- The only document of a stream of tokens. -/
def Node.ofTokens? (tokens : List Token) : Option Node :=
  (NodeScan.document (tokens, [])).map (·.1)

/-- The only document of a text. -/
def Node.ofText? (text : String) : Option Node :=
  (Token.ofText? text.toList).bind Node.ofTokens?

end TerraformPins.Yaml
