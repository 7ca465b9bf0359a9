/-!
# Blank space in text

Text is handled as a list of characters while it is taken apart, and as a `String` where it is a
finished value. This module holds the class of blank characters and the functions that cut them
off, which every reader of names and versions shares.

## Main definitions

* `isBlank`: the characters with the Unicode property `White_Space`
* `trim`, `trimmed`: a text without the blanks at its two ends
-/

namespace TerraformPins

/-- The characters with the Unicode property `White_Space`. A zero width space and a byte order
mark are not among them. -/
def isBlank (c : Char) : Bool :=
  (9 ≤ c.toNat && c.toNat ≤ 13) || c == ' ' || c == '\u0085' || c == '\u00a0' || c == '\u1680' ||
    (0x2000 ≤ c.toNat && c.toNat ≤ 0x200a) || c == '\u2028' || c == '\u2029' || c == '\u202f' ||
    c == '\u205f' || c == '\u3000'

/-- Drops the longest end of a list all of whose members satisfy `p`. -/
def dropEndWhile (p : α → Bool) (xs : List α) : List α :=
  (xs.reverse.dropWhile p).reverse

/-- Cuts off the members satisfying `p` at both ends of a list. -/
def trimWhile (p : α → Bool) (xs : List α) : List α :=
  dropEndWhile p (xs.dropWhile p)

/-- A text without the blanks at its two ends. -/
def trim (cs : List Char) : List Char :=
  trimWhile isBlank cs

/-- `trim` on finished text. -/
def trimmed (s : String) : String :=
  String.ofList (trim s.toList)

/-- Cuts a list at every member that satisfies `p`; the cut members are left out. There is always
at least one piece. -/
def splitAll (p : α → Bool) : List α → List (List α)
  | [] => [[]]
  | x :: xs =>
    match splitAll p xs with
    | [] => [[x]]
    | piece :: pieces => if p x then [] :: piece :: pieces else (x :: piece) :: pieces

/-- Strips `lead` from the front of a list, if the list starts with it. -/
def stripFront? [BEq α] : List α → List α → Option (List α)
  | [], xs => some xs
  | _ :: _, [] => none
  | l :: lead, x :: xs => if l == x then stripFront? lead xs else none

/-- Strips `trail` from the end of a list, if the list ends with it. -/
def stripBack? [BEq α] (trail xs : List α) : Option (List α) :=
  (stripFront? trail.reverse xs.reverse).map List.reverse

/-- The order of lists by the first place where they differ; a list comes behind its beginnings. -/
def lexLe [DecidableEq α] (le : α → α → Bool) : List α → List α → Bool
  | [], _ => true
  | _ :: _, [] => false
  | x :: xs, y :: ys => if x = y then lexLe le xs ys else le x y

/-- The pieces of `xs`, joined with `sep` between neighbours. -/
def joinWith (sep : List α) : List (List α) → List α
  | [] => []
  | [x] => x
  | x :: y :: rest => x ++ sep ++ joinWith sep (y :: rest)

end TerraformPins
