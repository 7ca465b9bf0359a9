/-!
# Structured data

A datum is what a structured report consists of: texts, truth values, lists and fields in a fixed
order. It has two written forms, JSON and YAML.

## Main definitions

* `Datum`: structured data
-/

namespace TerraformPins

/-- Structured data with fields in order. -/
inductive Datum where
  | nothing
  | truth (b : Bool)
  | text (s : String)
  | list (items : List Datum)
  | fields (pairs : List (String × Datum))
  deriving Inhabited

namespace Datum

/-- A text, or nothing. -/
def ofText? : Option String → Datum
  | some s => text s
  | none => nothing

/-- The word for a truth value. -/
def word (b : Bool) : List Char :=
  if b then ['t', 'r', 'u', 'e'] else ['f', 'a', 'l', 's', 'e']

/-- The word for nothing. -/
def nothingWord : List Char := ['n', 'u', 'l', 'l']

end Datum

end TerraformPins
