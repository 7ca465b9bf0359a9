/-!
# Decimals and the doubles nearest to them

A decimal is a natural number times a power of ten. The double nearest to it is computed in exact
arithmetic, ties going to the even neighbour, and so are the shortest decimals that lead back to a
double. Signs are no concern here.

## Main definitions

* `Decimal`: a number of digits and an exponent of ten
* `Double`: a number of at most 53 bits and an exponent of two
* `Decimal.nearest?`: the nearest double, unless the decimal is too big
* `Double.shortest`: the shortest decimal that has a given double as its nearest
-/

namespace TerraformPins

/-- The number `digits * 10 ^ exponent`. -/
structure Decimal where
  digits : Nat
  exponent : Int
  deriving DecidableEq, Repr, Inhabited

/-- The number `mantissa * 2 ^ exponent`. -/
structure Double where
  mantissa : Nat
  exponent : Int
  deriving DecidableEq, Repr, Inhabited

/-- The value of a decimal digit. -/
def digitValue (c : Char) : Nat :=
  c.toNat - '0'.toNat

/-- The number that a list of decimal digits denotes. -/
def naturalOf (digits : List Char) : Nat :=
  digits.foldl (fun n c => 10 * n + digitValue c) 0

/-- The quotient, rounded to the nearest integer; a tie goes to the even one. -/
def roundedQuotient (a b : Nat) : Nat :=
  let q := a / b
  let twice := 2 * (a % b)
  if b < twice ∨ (twice = b ∧ q % 2 = 1) then q + 1 else q

/-- The integral and the fractional power that an exponent asks for: `b ^ e` as a fraction. -/
def powerFraction (b : Nat) (e : Int) : Nat × Nat :=
  if 0 ≤ e then (b.pow e.toNat, 1) else (1, b.pow (-e).toNat)

namespace Double

/-- The least exponent of two of a double. -/
def leastExponent : Int := -1074

/-- Whether a double is below the bound of all doubles. -/
def isFinite (d : Double) : Bool :=
  let (up, down) := powerFraction 2 d.exponent
  d.mantissa * up < Nat.pow 2 1024 * down

/-- The double nearest to the fraction `a / b`, without regard to the greatest double. -/
def ofFraction (a b : Nat) : Double :=
  let guess : Int := (Nat.log2 a : Int) - Nat.log2 b - 53
  let scaled (e : Int) : Nat × Nat :=
    let (up, down) := powerFraction 2 e
    (a * down, b * up)
  let exact := scaled guess
  let e := max leastExponent (if Nat.pow 2 53 ≤ exact.1 / exact.2 then guess + 1 else guess)
  let parts := scaled e
  let m := roundedQuotient parts.1 parts.2
  if m = 0 then ⟨0, leastExponent⟩ else if m = Nat.pow 2 53 then ⟨Nat.pow 2 52, e + 1⟩ else ⟨m, e⟩

end Double

namespace Decimal

/-- The number of digits. -/
def width (d : Decimal) : Nat :=
  (Nat.toDigits 10 d.digits).length

/-- The double nearest to a decimal, unless the decimal lies beyond the doubles. Decimals that are
out of the range of doubles by their order of magnitude are told apart before any power is
computed. -/
def nearest? (d : Decimal) : Option Double :=
  if d.digits = 0 then some ⟨0, Double.leastExponent⟩
  else if 310 < (d.width : Int) + d.exponent then none
  else if (d.width : Int) + d.exponent < -330 then some ⟨0, Double.leastExponent⟩
  else
    let (up, down) := powerFraction 10 d.exponent
    let near := Double.ofFraction (d.digits * up) down
    if near.isFinite then some near else none

end Decimal

namespace Double

/-- The decimals with exponent `e` on both sides of a double, the nearer one first. -/
def neighbours (x : Double) (e : Int) : List Decimal :=
  let (up, down) := powerFraction 2 x.exponent
  let (tenUp, tenDown) := powerFraction 10 e
  let a := x.mantissa * up * tenDown
  let b := down * tenUp
  let low := a / b
  if 2 * (a % b) ≤ b then [⟨low, e⟩, ⟨low + 1, e⟩] else [⟨low + 1, e⟩, ⟨low, e⟩]

/-- The decimal exponent of the leading digit of a double, or one less. -/
def magnitude (x : Double) : Int :=
  let (up, down) := powerFraction 2 x.exponent
  let whole := x.mantissa * up / down
  if whole = 0 then
    -(((Nat.toDigits 10 (down / (x.mantissa * up))).length : Int))
  else (Nat.toDigits 10 whole).length - 1

/-- The first of the grids `e`, `e - 1`, … on which a neighbour of the double leads back to it. -/
def shortestFrom (x : Double) (e : Int) : Nat → Option Decimal
  | 0 => none
  | fuel + 1 =>
    match (x.neighbours e).find? fun d => d.digits ≠ 0 ∧ d.nearest? = some x with
    | some d => some d
    | none => shortestFrom x (e - 1) fuel

/-- The shortest decimal that has the double as its nearest. Nineteen grids are enough, since
seventeen digits always lead back. -/
def shortest (x : Double) : Decimal :=
  if x.mantissa = 0 then ⟨0, 0⟩ else (x.shortestFrom (x.magnitude + 1) 21).getD ⟨0, 0⟩

end Double

end TerraformPins
