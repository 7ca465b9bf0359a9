import TerraformPins.Text

/-!
# Wildcard patterns for names

A `*` in a pattern stands for any run of characters, also the empty one; every other character
stands for itself. The matcher fixes the literal before the first `*` and the literal after the last
one at the two ends of the name and then places the literals in between from left to right, each at
its first occurrence. It never goes back: an earlier place leaves more room for what follows.

## Main definitions

* `Wildcard.findFirst?`: the first occurrence of a literal
* `Wildcard.advance?`: the position after the next literal, if it stays in front of the last one
* `Wildcard.accepts`: the matcher
-/

namespace TerraformPins.Wildcard

/-- The number of characters in front of the first occurrence of `literal`. -/
def findFirst? (literal : List Char) : List Char → Option Nat
  | [] => if literal.isEmpty then some 0 else none
  | c :: rest =>
    if literal.isPrefixOf (c :: rest) then some 0 else (findFirst? literal rest).map (· + 1)

/-- Places `literal` at its first occurrence at or after `position` and returns the position behind
it. It must not reach beyond `limit`, where the characters of the last literal begin. -/
def advance? (name : List Char) (limit position : Nat) (literal : List Char) : Option Nat :=
  (findFirst? literal (name.drop position)).bind fun offset =>
    let next := position + offset + literal.length
    if next ≤ limit then some next else none

/-- Matching by the literals between the stars: the first one, those in the middle, the last one. -/
def acceptsPieces (first : List Char) (middle : List (List Char)) (last name : List Char) : Bool :=
  first.isPrefixOf name && last.isSuffixOf name && first.length + last.length ≤ name.length &&
    ((middle.filter (!·.isEmpty)).foldlM (advance? name (name.length - last.length))
      first.length).isSome

/-- Whether a name is described by a pattern, both as lists of characters. -/
def acceptsChars (pattern name : List Char) : Bool :=
  match splitAll (· == '*') pattern with
  | first :: next :: more =>
    acceptsPieces first (next :: more).dropLast ((next :: more).getLast (by simp)) name
  | _ => name == pattern

/-- Whether `name` is described by `pattern`. Without a star the two must be equal. -/
def accepts (pattern name : String) : Bool :=
  acceptsChars pattern.toList name.toList

/-- Whether `name` is described by one of `patterns`. -/
def acceptsAny (patterns : List String) (name : String) : Bool :=
  patterns.any (accepts · name)

end TerraformPins.Wildcard
