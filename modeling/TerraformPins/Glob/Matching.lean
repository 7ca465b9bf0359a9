import TerraformPins.Glob

/-!
# Matching paths against globs

A part takes some bytes from the front of a path; in general it can take them in several ways. The
matcher follows all ways at once: it keeps the list of the remainders that are left, without
repetitions, and a glob accepts a path if one of the remainders is empty in the end.

## Main definitions

* `Glob.Part.remainders`: what can be left of a path behind a part
* `Glob.accepts`: whether a path is described by a glob
-/

namespace TerraformPins.Glob

/-- All remainders of a list: the list itself, and each end of it. -/
def ends : List α → List (List α)
  | [] => [[]]
  | x :: xs => (x :: xs) :: ends xs

/-- The remainders behind a run of members that satisfy `p`. -/
def endsWhile (p : α → Bool) : List α → List (List α)
  | [] => [[]]
  | x :: xs => (x :: xs) :: if p x then endsWhile p xs else []

/-- The remainders behind each slash. -/
def behindSlashes : List UInt8 → List (List UInt8)
  | [] => []
  | b :: bs => if b = slash then bs :: behindSlashes bs else behindSlashes bs

mutual

/-- What can be left of a path behind a part. -/
def Part.remainders : Part → List UInt8 → List (List UInt8)
  | .byte b, path =>
    match path with
    | c :: rest => if c = b then [rest] else []
    | [] => []
  | .any, path =>
    match path with
    | c :: rest => if c = slash then [] else [rest]
    | [] => []
  | .star, path => endsWhile (· != slash) path
  | .leading, path => path :: behindSlashes path
  | .trailing, path =>
    match path with
    | c :: rest => if c = slash then ends rest else []
    | [] => []
  | .between, path =>
    match path with
    | c :: rest => if c = slash then rest :: behindSlashes rest else []
    | [] => []
  | .byteOf negated ranges, path =>
    match path with
    | c :: rest => if inRanges ranges c != negated then [rest] else []
    | [] => []
  | .either branches, path =>
    if branches.isEmpty then [path] else branchRemainders branches path

/-- What can be left of a path behind one of several globs. -/
def branchRemainders : List (List Part) → List UInt8 → List (List UInt8)
  | [], _ => []
  | branch :: branches, path => partsRemainders branch [path] ++ branchRemainders branches path

/-- What can be left of one of several paths behind parts in a row. -/
def partsRemainders : List Part → List (List UInt8) → List (List UInt8)
  | [], paths => paths
  | part :: parts, paths => partsRemainders parts (paths.flatMap part.remainders).eraseDups

end

/-- Whether a path, as its bytes, is described by a glob. The glob `**` describes every path. -/
def acceptsBytes (g : Glob) (path : List UInt8) : Bool :=
  match g.parts with
  | [.leading] => true
  | parts => (partsRemainders parts [path]).contains []

/-- Whether a path is described by a glob. -/
def accepts (g : Glob) (path : String) : Bool :=
  g.acceptsBytes (utf8Bytes path)

end TerraformPins.Glob
