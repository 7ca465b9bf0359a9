import TerraformPins.Datum
import TerraformPins.Hex

/-!
# Data as JSON

Every item of a list and every field stands on a line of its own, two spaces further in than the
brackets around it; empty lists and empty sets of fields stay on one line. There is no line break at
the end.

## Main definitions

* `Json.quoted`: a text as a JSON string
* `Datum.json`: data as JSON
-/

namespace TerraformPins

namespace Json

/-- A character in a JSON string. -/
def escaped (c : Char) : List Char :=
  match c with
  | '"' => ['\\', '"']
  | '\\' => ['\\', '\\']
  | '\n' => ['\\', 'n']
  | '\r' => ['\\', 'r']
  | '\t' => ['\\', 't']
  | '\x08' => ['\\', 'b']
  | '\x0c' => ['\\', 'f']
  | c =>
    if c.toNat < 32 then
      ['\\', 'u', '0', '0', Nat.digitChar (c.toNat / 16), Nat.digitChar (c.toNat % 16)]
    else [c]

/-- A text as a JSON string. -/
def quoted (cs : List Char) : List Char :=
  '"' :: cs.flatMap escaped ++ ['"']

/-- A line break and the blanks of the next line. -/
def newline (depth : Nat) : List Char :=
  '\n' :: List.replicate (2 * depth) ' '

end Json

namespace Datum

open Json

mutual

/-- Data as JSON, inside as many brackets as `depth` says. -/
def jsonAt (depth : Nat) : Datum → List Char
  | .nothing => nothingWord
  | .truth b => word b
  | .text s => quoted s.toList
  | .list [] => ['[', ']']
  | .list (item :: items) =>
    '[' :: newline (depth + 1) ++ jsonAt (depth + 1) item ++ jsonItems depth items ++
      newline depth ++ [']']
  | .fields [] => ['{', '}']
  | .fields ((name, value) :: pairs) =>
    '{' :: newline (depth + 1) ++ quoted name.toList ++ [':', ' '] ++ jsonAt (depth + 1) value ++
      jsonFields depth pairs ++ newline depth ++ ['}']

/-- The items of a list behind the first one. -/
def jsonItems (depth : Nat) : List Datum → List Char
  | [] => []
  | item :: items =>
    ',' :: newline (depth + 1) ++ jsonAt (depth + 1) item ++ jsonItems depth items

/-- The fields behind the first one. -/
def jsonFields (depth : Nat) : List (String × Datum) → List Char
  | [] => []
  | (name, value) :: pairs =>
    ',' :: newline (depth + 1) ++ quoted name.toList ++ [':', ' '] ++ jsonAt (depth + 1) value ++
      jsonFields depth pairs

end

/-- Data as JSON. -/
def json (d : Datum) : String :=
  String.ofList (jsonAt 0 d)

end Datum

end TerraformPins
