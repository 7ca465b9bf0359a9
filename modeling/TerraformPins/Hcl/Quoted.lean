import TerraformPins.Hex
import TerraformPins.Scan

/-!
# Text inside quotes

Between quotes a backslash escapes control characters and quotes, and a doubled `$` or `%` in front
of a brace stands for a single one, so that no interpolation begins there.

The writer has one form for every value. The reader accepts more: characters may be written by their
code point, and an escape that means nothing is dropped, together with the rest of its part, once
the part has begun. Such an escape at the very start of a part is an error.

## Main definitions

* `Quoted.encode`: the written form of a value
* `Quoted.decode`: one literal part, up to the next quote, interpolation or directive
-/

namespace TerraformPins.Hcl.Quoted

/-- The written form of a control character or another one that cannot stand between quotes. -/
def encodeChar (c : Char) : List Char :=
  if c = '\x08' then ['\\', 'b']
  else if c = '\t' then ['\\', 't']
  else if c = '\n' then ['\\', 'n']
  else if c = '\x0c' then ['\\', 'f']
  else if c = '\r' then ['\\', 'r']
  else if c = '"' then ['\\', '"']
  else if c = '\\' then ['\\', '\\']
  else if c.toNat < 0x20 ∨ c.toNat = 0x7f then
    ['\\', 'u', '0', '0', hexDigit (c.toNat / 16), hexDigit (c.toNat % 16)]
  else [c]

/-- The written form of a value, without the quotes. -/
def encode : List Char → List Char
  | [] => []
  | '$' :: '{' :: rest => '$' :: '$' :: '{' :: encode rest
  | '%' :: '{' :: rest => '%' :: '%' :: '{' :: encode rest
  | c :: rest => encodeChar c ++ encode rest

/-- The character that a letter after a backslash stands for. -/
def escaped? (c : Char) : Option Char :=
  if c = 'n' then some '\n'
  else if c = 'r' then some '\r'
  else if c = 't' then some '\t'
  else if c = 'b' then some '\x08'
  else if c = 'f' then some '\x0c'
  else if c = '\\' ∨ c = '"' ∨ c = '/' then some c
  else none

/-- Reads one literal part and returns its value and the rest. `begun` says whether the part has a
character already; without one there is no part.

An escape that means nothing ends the part and is dropped: the backslash and the character after it,
which has to be an ASCII character. -/
def decode (begun : Bool) : List Char → Option (List Char × List Char)
  | [] => if begun then some ([], []) else none
  | '"' :: rest => if begun then some ([], '"' :: rest) else none
  | '$' :: '{' :: rest => if begun then some ([], '$' :: '{' :: rest) else none
  | '%' :: '{' :: rest => if begun then some ([], '%' :: '{' :: rest) else none
  | '$' :: '$' :: '{' :: rest => (decode true rest).map fun (v, r) => ('$' :: '{' :: v, r)
  | '%' :: '%' :: '{' :: rest => (decode true rest).map fun (v, r) => ('%' :: '{' :: v, r)
  | '\\' :: 'u' :: rest =>
    match rest with
    | a :: b :: c :: d :: rest' =>
      match codePoint? [a, b, c, d] with
      | some x => (decode true rest').map fun (v, r) => (x :: v, r)
      | none => if begun then some ([], rest) else none
    | _ => if begun then some ([], rest) else none
  | '\\' :: 'U' :: rest =>
    match rest with
    | a :: b :: c :: d :: e :: f :: g :: h :: rest' =>
      match codePoint? [a, b, c, d, e, f, g, h] with
      | some x => (decode true rest').map fun (v, r) => (x :: v, r)
      | none => if begun then some ([], rest) else none
    | _ => if begun then some ([], rest) else none
  | '\\' :: c :: rest =>
    match escaped? c with
    | some x => (decode true rest).map fun (v, r) => (x :: v, r)
    | none => if begun ∧ c.toNat < 0x80 then some ([], rest) else none
  | ['\\'] => none
  | c :: rest => (decode true rest).map fun (v, r) => (c :: v, r)

/-- One literal part as a reader. -/
def part : Scan (List Char) := decode false

end TerraformPins.Hcl.Quoted
