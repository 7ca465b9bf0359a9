import TerraformPins.Decimal
import TerraformPins.Hex
import TerraformPins.Text

/-!
# Numbers of YAML

A plain scalar may be an integer, in decimal or behind `0x`, `0o` or `0b`, or a real number. Digits
behind a leading zero are no number. The text of an integer is its decimal form; the text of a real
number has the fewest digits that lead back to the nearest double, with a point in positional
notation.

## Main definitions

* `integer?`: the integer that a text denotes
* `realText?`: the text of the real number that a text denotes
* `Double.text`: the text of a double
-/

namespace TerraformPins.Yaml.Number

/-- Whether a text is a zero and more digits, with or without a sign. -/
def isPadded (cs : List Char) : Bool :=
  let cs := match cs with
    | '-' :: rest | '+' :: rest => rest
    | _ => cs
  match cs with
  | '0' :: d :: rest => (d :: rest).all Char.isDigit
  | _ => false

/-- The number that digits to the base `base` denote. -/
def digits? (base : Nat) (cs : List Char) : Option Nat :=
  if cs.isEmpty then none
  else cs.foldlM (fun n c => (hexValue? c).bind fun d =>
    if d < base then some (base * n + d) else none) 0

/-- The number behind a mark of its base. -/
def marked? : List Char → Option Nat
  | '0' :: 'x' :: rest => digits? 16 rest
  | '0' :: 'o' :: rest => digits? 8 rest
  | '0' :: 'b' :: rest => digits? 2 rest
  | _ => none

/-- The integer that a text denotes. -/
def integer? (cs : List Char) : Option Int :=
  let decimal (cs digits : List Char) : Option Nat :=
    if isPadded cs then none else digits? 10 digits
  let natural (cs rest : List Char) : Option Nat := (marked? rest).orElse fun _ => decimal cs rest
  match cs with
  | '-' :: rest => (natural cs rest).map fun n => -(n : Int)
  | '+' :: rest => (natural cs rest).map Int.ofNat
  | _ => (natural cs cs).map Int.ofNat

/-- Whether an integer fits 64 bits, with or without a sign. -/
def fits64 (n : Int) : Bool :=
  -(Nat.pow 2 63 : Nat) ≤ n && n < (Nat.pow 2 64 : Nat)

/-- Whether an integer fits 128 bits, with or without a sign. -/
def fits128 (n : Int) : Bool :=
  -(Nat.pow 2 127 : Nat) ≤ n && n < (Nat.pow 2 128 : Nat)

/-- The decimal that a text without sign denotes: digits with a point somewhere, and an exponent. -/
def decimal? (cs : List Char) : Option Decimal :=
  let whole := cs.takeWhile Char.isDigit
  let cs := cs.drop whole.length
  let fraction := match cs with
    | '.' :: rest => rest.takeWhile Char.isDigit
    | _ => []
  let cs := match cs with
    | '.' :: rest => rest.drop fraction.length
    | _ => cs
  let build (e : Int) : Decimal := ⟨naturalOf (whole ++ fraction), e - fraction.length⟩
  if whole.isEmpty && fraction.isEmpty then none
  else
    match cs with
    | [] => some (build 0)
    | mark :: rest =>
      if mark != 'e' && mark != 'E' then none
      else
        let (negative, digits) := match rest with
          | '-' :: rest => (true, rest)
          | '+' :: rest => (false, rest)
          | _ => (false, rest)
        if digits.isEmpty || !digits.all Char.isDigit then none
        else
          let e : Int := naturalOf digits
          some (build (if negative then -e else e))

/-- The text of a positive decimal without trailing zeros: positional with a point from `0.00001` up
to sixteen digits in front of the point, otherwise with an exponent. -/
def decimalText (d : Decimal) : List Char :=
  let digits := Nat.toDigits 10 d.digits
  let point : Int := digits.length + d.exponent
  if 0 ≤ d.exponent ∧ point ≤ 16 then
    digits ++ List.replicate d.exponent.toNat '0' ++ ['.', '0']
  else if 0 < point ∧ point ≤ 16 then
    digits.take point.toNat ++ '.' :: digits.drop point.toNat
  else if -5 < point ∧ point ≤ 0 then
    ['0', '.'] ++ List.replicate (-point).toNat '0' ++ digits
  else
    digits.take 1 ++ (if digits.length = 1 then [] else '.' :: digits.drop 1) ++
      'e' :: (toString (point - 1)).toList

/-- The text of a double that is not negative. -/
def doubleText (x : Double) : List Char :=
  if x.mantissa = 0 then ['0', '.', '0'] else decimalText x.shortest

/-- The text of the real number that a text denotes, unless it lies beyond the doubles. -/
def realText? (cs : List Char) : Option (List Char) :=
  let positive := match cs with
    | '+' :: rest => rest
    | _ => cs
  let named (names : List String) (text : List Char) : Bool := names.any (·.toList == text)
  if named [".inf", ".Inf", ".INF"] positive then some ".inf".toList
  else if named ["-.inf", "-.Inf", "-.INF"] cs then some "-.inf".toList
  else if named [".nan", ".NaN", ".NAN"] cs then some ".nan".toList
  else
    let finite (cs : List Char) : Option (List Char) :=
      ((decimal? cs).bind Decimal.nearest?).map doubleText
    match cs with
    | '-' :: rest => (finite rest).map ('-' :: ·)
    | _ => finite positive

end TerraformPins.Yaml.Number
