import TerraformPins.Text

/-!
# Glob patterns for paths

A glob describes paths byte by byte. `?` stands for one byte and `*` for any run of bytes, both
within one component of the path. `**` as a whole component crosses directories; elsewhere it is
two stars. `[…]` stands for one byte of a class, `{…,…}` for one of several globs, and a backslash
takes the special meaning from the next character.

A class lists characters, but it takes a single byte: a character of several bytes puts each of them
into the class.

## Main definitions

* `Glob.Part`: the parts that a glob consists of
* `Glob.ofChars?`: a glob from its text
-/

namespace TerraformPins

/-- The bytes of a character in UTF-8. -/
def utf8 (c : Char) : List UInt8 :=
  c.toString.toUTF8.toList

/-- The bytes of a text in UTF-8. -/
def utf8Bytes (s : String) : List UInt8 :=
  s.toUTF8.toList

/-- The byte that separates the components of a path. -/
def slash : UInt8 := 47

namespace Glob

/-- The parts of a glob. -/
inductive Part where
  /-- The byte itself. -/
  | byte (b : UInt8)
  /-- One byte within a component. -/
  | any
  /-- Any run of bytes within a component. -/
  | star
  /-- Any number of whole components at the beginning. -/
  | leading
  /-- A slash and anything behind it. -/
  | trailing
  /-- A slash and any number of whole components behind it. -/
  | between
  /-- A byte in one of the ranges, or one in none of them. -/
  | byteOf (negated : Bool) (ranges : List (UInt8 × UInt8))
  /-- One of several globs; nothing at all if there is none. -/
  | either (branches : List (List Part))
  deriving Inhabited

namespace Part

/-- Whether a part takes nothing, because it is a choice among no globs. -/
def isNothing : Part → Bool
  | either [] => true
  | _ => false

end Part

end Glob

/-- A glob: its parts in order. -/
structure Glob where
  parts : List Glob.Part
  deriving Inhabited

namespace Glob

/-- Whether a byte lies in one of several ranges. -/
def inRanges (ranges : List (UInt8 × UInt8)) (b : UInt8) : Bool :=
  ranges.any fun (low, high) => low ≤ b && b ≤ high

/-! ### Classes -/

/-- A class while it is read: its ranges of characters, the last one first, and whether a `-` has
been read that may continue the last range. -/
structure ClassDraft where
  ranges : List (Char × Char) := []
  inRange : Bool := false
  deriving Inhabited

/-- Adds a character to a class, unless it ends a range that begins behind it. -/
def ClassDraft.add? (d : ClassDraft) (c : Char) : Option ClassDraft :=
  match d.inRange, d.ranges with
  | true, (low, _) :: ranges => if c < low then none else some ⟨(low, c) :: ranges, false⟩
  | _, ranges => some ⟨(c, c) :: ranges, false⟩

/-- The ranges of bytes for a range of characters: the last byte of the first character and the
first byte of the last one span a range, every other byte stands for itself. -/
def byteRanges (low high : Char) : List (UInt8 × UInt8) :=
  let alone (bs : List UInt8) := bs.map fun b => (b, b)
  if low = high then alone (utf8 low)
  else
    match (utf8 low).getLast?, utf8 high with
    | some a, b :: more => alone (utf8 low).dropLast ++ (a, b) :: alone more
    | _, _ => []

/-- The part for a class that has been read. A `-` in front of the closing bracket is a member. -/
def ClassDraft.part (d : ClassDraft) (negated : Bool) : Part :=
  let ranges := if d.inRange then ('-', '-') :: d.ranges else d.ranges
  .byteOf negated (ranges.reverse.flatMap fun (low, high) => byteRanges low high)

/-- What becomes of the text behind an opening bracket. -/
inductive ClassReading where
  /-- The class and the number of characters up to and with the closing bracket. -/
  | closed (part : Part) (length : Nat)
  /-- There is no closing bracket. -/
  | unclosed
  /-- A range ends before it begins. -/
  | reversed
  deriving Inhabited

/-- Reads the members of a class; the first one may be a closing bracket or a `-`. -/
def readMembers (negated first : Bool) (d : ClassDraft) (length : Nat) : List Char → ClassReading
  | [] => .unclosed
  | c :: cs =>
    if c = ']' ∧ ¬first then .closed (d.part negated) (length + 1)
    else if c = '-' ∧ ¬first ∧ ¬d.inRange then
      readMembers negated false { d with inRange := true } (length + 1) cs
    else
      match d.add? c with
      | some d => readMembers negated false d (length + 1) cs
      | none => .reversed

/-- Reads the text behind an opening bracket. -/
def readClass : List Char → ClassReading
  | '!' :: cs => readMembers true true {} 1 cs
  | '^' :: cs => readMembers true true {} 1 cs
  | cs => readMembers false true {} 0 cs

/-! ### Groups -/

/-- A list of globs while it is read: the branches in front of the current one and the parts of the
current one, both with the last one first. -/
structure Group where
  branches : List (List Part) := []
  current : List Part := []
  deriving Inhabited

/-- A glob while it is read: the group that is being read and the groups around it. -/
structure Draft where
  group : Group := {}
  around : List Group := []
  deriving Inhabited

namespace Draft

/-- Whether the current position is inside braces. -/
def isNested (d : Draft) : Bool := !d.around.isEmpty

/-- Adds a part to the current branch. -/
def push (d : Draft) (p : Part) : Draft :=
  { d with group := { d.group with current := p :: d.group.current } }

/-- Adds the bytes of a character. -/
def pushChar (d : Draft) (c : Char) : Draft :=
  (utf8 c).foldl (fun d b => d.push (.byte b)) d

/-- Puts `p` into the place of the last part. A part that crosses directories at the beginning
stays. -/
def replaceLast (d : Draft) (p : Part) : Draft :=
  match d.group.current with
  | .leading :: _ => d
  | _ :: more => { d with group := { d.group with current := p :: more } }
  | [] => d.push p

/-- Opens a brace. -/
def openBrace (d : Draft) : Draft :=
  ⟨{}, d.group :: d.around⟩

/-- Begins the next branch. -/
def nextBranch (d : Draft) : Draft :=
  { d with group := ⟨d.group.current :: d.group.branches, []⟩ }

/-- The part for a group that is complete. Branches that take nothing are left out. -/
def groupPart (g : Group) : Part :=
  .either (((g.current :: g.branches).reverse.map List.reverse).filter (!·.all Part.isNothing))

/-- Closes a brace, if one is open. -/
def closeBrace? (d : Draft) : Option Draft :=
  match d.around with
  | [] => none
  | outer :: around => some (push ⟨outer, around⟩ (groupPart d.group))

/-- Whether a `**` at the current position stands at the beginning of a component. Inside braces
that is also so behind a comma or an opening brace that stands for itself. -/
def atComponent (d : Draft) : Bool :=
  match d.group.current with
  | .leading :: _ | .between :: _ => true
  | .byte b :: _ => b == slash || (d.isNested && (b == 44 || b == 123))
  | _ => false

/-- Adds a `**`, given the text behind it, and says how many characters of that text belong to it.
-/
def doubleStar (d : Draft) (behind : List Char) : Draft × Nat :=
  let twoStars := ((d.push .star).push .star, 0)
  if d.group.current.isEmpty then
    match behind with
    | [] => (d.push .leading, 0)
    | '/' :: _ => (d.push .leading, 1)
    | _ => twoStars
  else if d.atComponent then
    match behind with
    | [] => (d.replaceLast .trailing, 0)
    | '/' :: _ => (d.replaceLast .between, 1)
    | c :: _ => if d.isNested ∧ (c = ',' ∨ c = '}') then (d.replaceLast .trailing, 0) else twoStars
  else twoStars

/-- The glob that has been read, unless a brace is still open. -/
def finish? (d : Draft) : Option Glob :=
  if d.isNested then none else some ⟨d.group.current.reverse⟩

end Draft

/-- How a bracket without a closing one is taken. -/
inductive LoneBracket where
  | refused
  /-- It stands for itself. -/
  | literal
  deriving DecidableEq, Repr, Inhabited

/-- Reads a glob character by character; `skip` characters are passed over, because they have been
used already. -/
def read? (lone : LoneBracket) (d : Draft) : Nat → List Char → Option Draft
  | _, [] => some d
  | skip + 1, _ :: cs => read? lone d skip cs
  | 0, c :: cs =>
    match c with
    | '?' => read? lone (d.push .any) 0 cs
    | '*' =>
      match cs with
      | '*' :: behind =>
        let (d, used) := d.doubleStar behind
        read? lone d (used + 1) cs
      | _ => read? lone (d.push .star) 0 cs
    | '[' =>
      match readClass cs with
      | .closed part length => read? lone (d.push part) length cs
      | .unclosed => if lone = .literal then read? lone (d.pushChar '[') 0 cs else none
      | .reversed => none
    | '{' => read? lone d.openBrace 0 cs
    | '}' => d.closeBrace?.bind fun d => read? lone d 0 cs
    | ',' => read? lone (if d.isNested then d.nextBranch else d.pushChar ',') 0 cs
    | '\\' =>
      match cs with
      | [] => none
      | e :: _ => read? lone (d.pushChar e) 1 cs
    | c => read? lone (d.pushChar c) 0 cs

/-- The glob that a text says. -/
def ofChars? (lone : LoneBracket) (cs : List Char) : Option Glob :=
  (read? lone {} 0 cs).bind Draft.finish?

end Glob

end TerraformPins
