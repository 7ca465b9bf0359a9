import TerraformPins.Datum
import TerraformPins.Hex
import TerraformPins.Yaml.Value

/-!
# Data as YAML

Lists and fields are written as blocks, two spaces further in at each level; the items of a list
stand right below the name of its field. A text is written plainly if that reads back as the same
text. If it would read as something else it is put between single quotes, and as a block if it has
line breaks. A text that none of these can hold is put between double quotes.

## Main definitions

* `Yaml.Shape`: what a text looks like to a writer
* `Yaml.scalar`: a text as a scalar
* `Datum.yaml`: data as YAML
-/

namespace TerraformPins

namespace Yaml

/-- Whether a character can stand in a YAML text as itself, other than between double quotes. -/
def isPrintable (c : Char) : Bool :=
  c == '\n' || (isAllowed c && c != '\t' && c != '\r' && c != '\u0085' && c != '\ufeff')

/-- The characters that cannot begin a plain scalar. -/
def isIndicator (c : Char) : Bool :=
  ",[]\x7b\x7d#&*!|>'\"%@\x60".toList.contains c

/-- Whether `p` holds at some place of a text, of the character in front and the text from there. -/
def holdsSomewhere (p : Char → List Char → Bool) : List Char → Bool
  | [] => false
  | c :: cs => p c cs || holdsSomewhere p cs

/-- Whether a text would be taken for something else by its marks: an indicator at the beginning, a
colon in front of a blank, or a `#` behind one. -/
def hasMarks (cs : List Char) : Bool :=
  let atFront := match cs with
    | [] => false
    | c :: rest => isIndicator c || ((c == '-' || c == '?') && startsBlank rest)
  atFront || ['-', '-', '-'].isPrefixOf cs || ['.', '.', '.'].isPrefixOf cs ||
    holdsSomewhere (fun c rest => c == ':' && startsBlank rest) cs ||
    holdsSomewhere (fun c rest => startsBlank [c] && rest.head? == some '#') cs

/-- Whether the plain form of a text would be read as something else than the text. -/
def isAmbiguous (cs : List Char) : Bool :=
  Value.ofPlain cs != .other || Number.isPadded cs

/-- Whether some character that satisfies `p` is followed by one that satisfies `q`. -/
def hasPair (p q : Char → Bool) (cs : List Char) : Bool :=
  holdsSomewhere (fun c rest => p c && rest.head?.any q) cs

/-- Whether a text can only stand between double quotes. -/
def needsEscapes (cs : List Char) : Bool :=
  !cs.all isPrintable || hasPair (· == ' ') isBreak cs

/-- The forms of a scalar. -/
inductive Form where
  | plain
  | single
  | double
  | block
  deriving DecidableEq, Repr, Inhabited

/-- Whether a text has a space or a line break at one of its ends. -/
def hasLooseEnds (cs : List Char) : Bool :=
  let loose (c : Char) : Bool := c == ' ' || isBreak c
  cs.head?.any loose || cs.getLast?.any loose

/-- The form in which a text is written. -/
def form (cs : List Char) : Form :=
  if needsEscapes cs then .double
  else if cs.contains '\n' then if cs.getLast? = some ' ' then .double else .block
  else if hasPair isBreak (· == ' ') cs then .double
  else if cs.isEmpty || isAmbiguous cs || hasMarks cs || hasLooseEnds cs || cs.any isBreak then
    .single
  else .plain

/-- A text whose lines behind the first one are `indent` spaces further in. `atStart` says whether a
line begins with the text. Empty lines stay empty. -/
def indented (indent : Nat) (atStart : Bool) : List Char → List Char
  | [] => []
  | c :: cs =>
    if isBreak c then c :: indented indent true cs
    else (if atStart then List.replicate indent ' ' else []) ++ c :: indented indent false cs

/-- The letter that a character is written with behind a backslash. -/
def shortEscape? (c : Char) : Option Char :=
  [('\x00', '0'), ('\x07', 'a'), ('\x08', 'b'), ('\t', 't'), ('\n', 'n'), ('\x0b', 'v'),
    ('\x0c', 'f'), ('\r', 'r'), ('\x1b', 'e'), ('"', '"'), ('\\', '\\'), ('\u0085', 'N'),
    ('\u00a0', '_'), ('\u2028', 'L'), ('\u2029', 'P')].lookup c

/-- The last hexadecimal digits of a number, as many as are asked for. -/
def hexDigits : (width : Nat) → Nat → List Char
  | 0, _ => []
  | width + 1, n => hexDigits width (n / 16) ++ [hexDigit (n % 16)]

/-- A character between double quotes. -/
def escaped (c : Char) : List Char :=
  if isPrintable c && !isBreak c && c != '"' && c != '\\' then [c]
  else
    match shortEscape? c with
    | some letter => ['\\', letter]
    | none =>
      if c.toNat ≤ 0xff then '\\' :: 'x' :: hexDigits 2 c.toNat
      else if c.toNat ≤ 0xffff then '\\' :: 'u' :: hexDigits 4 c.toNat
      else '\\' :: 'U' :: hexDigits 8 c.toNat

/-- The marks behind the bar of a block: the indentation if the text begins with a space or a line
break, and whether line breaks are at the end. -/
def blockMarks (cs : List Char) : List Char :=
  (if cs.head?.any fun c => c == ' ' || isBreak c then ['2'] else []) ++
    match cs.reverse with
    | [] => ['-']
    | [c] => if isBreak c then ['+'] else ['-']
    | c :: d :: _ => if !isBreak c then ['-'] else if isBreak d then ['+'] else []

/-- A text as a scalar with the line break behind it; lines of its own are `indent` spaces in. -/
def scalar (indent : Nat) (cs : List Char) : List Char :=
  match form cs with
  | .plain => cs ++ ['\n']
  | .single =>
    let doubled := cs.flatMap fun c => if c = '\'' then ['\'', '\''] else [c]
    '\'' :: indented indent false (doubled ++ ['\'']) ++ ['\n']
  | .double => '"' :: cs.flatMap escaped ++ ['"', '\n']
  | .block =>
    '|' :: blockMarks cs ++ '\n' :: indented indent true cs ++
      if cs.getLast?.any isBreak then [] else ['\n']

end Yaml

namespace Datum

open Yaml

/-- The blanks at the front of a line. -/
def margin (indent : Nat) : List Char :=
  List.replicate indent ' '

mutual

/-- What stands behind the name of a field whose block is `indent` spaces in. -/
def yamlValue (indent : Nat) : Datum → List Char
  | .nothing => ' ' :: nothingWord ++ ['\n']
  | .truth b => ' ' :: word b ++ ['\n']
  | .text s => ' ' :: scalar (indent + 2) s.toList
  | .list [] => [' ', '[', ']', '\n']
  | .list items => '\n' :: yamlItems indent items
  | .fields [] => [' ', '{', '}', '\n']
  | .fields pairs => '\n' :: yamlFields (indent + 2) pairs

/-- What stands behind the dash of an item that is `indent` spaces in. -/
def yamlItem (indent : Nat) : Datum → List Char
  | .nothing => nothingWord ++ ['\n']
  | .truth b => word b ++ ['\n']
  | .text s => scalar (indent + 2) s.toList
  | .list [] => ['[', ']', '\n']
  | .list (item :: items) =>
    '-' :: ' ' :: yamlItem (indent + 2) item ++ yamlItems (indent + 2) items
  | .fields [] => ['{', '}', '\n']
  | .fields ((name, value) :: pairs) =>
    name.toList ++ ':' :: yamlValue (indent + 2) value ++ yamlFields (indent + 2) pairs

/-- The items of a list as lines. -/
def yamlItems (indent : Nat) : List Datum → List Char
  | [] => []
  | item :: items => margin indent ++ '-' :: ' ' :: yamlItem indent item ++ yamlItems indent items

/-- Fields as lines. -/
def yamlFields (indent : Nat) : List (String × Datum) → List Char
  | [] => []
  | (name, value) :: pairs =>
    margin indent ++ name.toList ++ ':' :: yamlValue indent value ++ yamlFields indent pairs

end

/-- Data as YAML. -/
def yaml : Datum → String
  | .fields (pair :: pairs) => String.ofList (yamlFields 0 (pair :: pairs))
  | .list (item :: items) => String.ofList (yamlItems 0 (item :: items))
  | d => String.ofList (yamlItem 0 d)

end Datum

end TerraformPins
