import TerraformPins.Decimal
import TerraformPins.Hcl.Blank

/-!
# Numbers of HCL

A number is read as digits with an optional fraction and an optional exponent, and a minus sign
directly in front of the digits, or with blank space between, belongs to it. An integer has to fit
64 bits and any other number has to lie in the range of doubles. The text of a number is kept as it
was written.

## Main definitions

* `Number.unsigned`, `Number.signed`: the readers
* `Number.value`: a form of the written text that is the same for equal numbers
-/

namespace TerraformPins.Hcl.Number

/-- The pieces of a number without its sign. -/
structure Pieces where
  whole : List Char
  fraction : List Char
  /-- The mark, the sign and the digits of the exponent. -/
  exponent : List Char × List Char × List Char

namespace Pieces

/-- The text of the pieces. -/
def chars (p : Pieces) : List Char :=
  p.whole ++ (if p.fraction.isEmpty then [] else '.' :: p.fraction) ++
    p.exponent.1 ++ p.exponent.2.1 ++ p.exponent.2.2

/-- Whether there is neither a fraction nor an exponent. -/
def isIntegral (p : Pieces) : Bool :=
  p.fraction.isEmpty && p.exponent.1.isEmpty

/-- The number as a decimal. -/
def decimal (p : Pieces) : Decimal :=
  let e : Int := naturalOf p.exponent.2.2
  ⟨naturalOf (p.whole ++ p.fraction),
    (if p.exponent.2.1 = ['-'] then -e else e) - p.fraction.length⟩

/-- Whether the number is in range. -/
def inRange (p : Pieces) : Bool :=
  if p.isIntegral then naturalOf p.whole < Nat.pow 2 64 else p.decimal.nearest?.isSome

end Pieces

/-- The fraction behind the digits in front of the point. -/
def fraction : Scan (List Char) := do
  let _ ← Scan.exactly ['.']
  Scan.run1 Char.isDigit

/-- The exponent: its mark, its sign and its digits. -/
def exponent : Scan (List Char × List Char × List Char) := do
  let mark ← Scan.one fun c => c == 'e' || c == 'E'
  let sign ← Scan.optional (Scan.one fun c => c == '+' || c == '-')
  let digits ← Scan.run1 Char.isDigit
  pure ([mark], sign.toList, digits)

/-- The pieces of a number without sign. -/
def pieces : Scan Pieces := do
  let whole ← Scan.run1 Char.isDigit
  let fraction ← Scan.optional fraction
  let exponent ← Scan.optional exponent
  pure ⟨whole, fraction.getD [], exponent.getD ([], [], [])⟩

/-- A number without sign, as written. -/
def unsigned : Scan (List Char) := do
  let p ← pieces
  guard p.inRange
  pure p.chars

/-- A number with a minus sign, as written. -/
def signed : Scan (List Char) := do
  let minus ← Scan.exactly ['-']
  let gap ← Blank.inline
  let digits ← unsigned
  pure (minus ++ gap ++ digits)

/-- The value of a number: its sign and the double nearest to it, or the integer itself, both as a
fraction in lowest terms. Equal numbers have equal values. -/
def value (written : List Char) : Bool × Nat × Nat :=
  match pieces (written.dropWhile (!·.isDigit)) with
  | none => (false, 0, 0)
  | some (p, _) =>
    let (a, b) :=
      if p.isIntegral then (naturalOf p.whole, 1)
      else
        match p.decimal.nearest? with
        | none => (0, 0)
        | some d =>
          let (up, down) := powerFraction 2 d.exponent
          (d.mantissa * up, down)
    let g := Nat.gcd a b
    (written.head? == some '-' && a != 0, a / g, b / g)

end TerraformPins.Hcl.Number
