import TerraformPins.Glob.Matching

/-!
# Ignore rules

A line of an ignore file is a glob for the files and folders to leave out, or, behind a `!`, for
those to keep after all. A glob with a slash in front or in the middle describes paths below the
folder of the ignore file; any other glob describes names at any depth. A slash at the end
restricts the rule to folders. Of the rules that apply to a path the last one decides.

## Main definitions

* `IgnoreRule`, `IgnoreRule.ofLine?`: a rule and its reading
* `Judgement`: what the rules say about a path
* `IgnoreRule.judge`: the last rule that applies
-/

namespace TerraformPins

/-- What ignore rules say about a path that they apply to. -/
inductive Judgement where
  | leaveOut
  | keep
  deriving DecidableEq, Repr, Inhabited

/-- A rule of an ignore file. -/
structure IgnoreRule where
  glob : Glob
  judgement : Judgement
  /-- Whether the rule applies to folders only. -/
  foldersOnly : Bool
  deriving Inhabited

namespace IgnoreRule

/-- A line without the blanks at its end. A blank behind a backslash is kept, and all of its
neighbours with it. -/
def withoutTrail (line : List Char) : List Char :=
  if ['\\', ' '].isSuffixOf line then line else dropEndWhile isBlank line

/-- The judgement that a line stands for, whether it is bound to the folder of the ignore file by
its beginning, and the rest of the line. A backslash in front of `!` or `#` takes their meaning
from them. -/
def front : List Char → Judgement × Bool × List Char
  | '\\' :: '!' :: cs => (.leaveOut, false, '!' :: cs)
  | '\\' :: '#' :: cs => (.leaveOut, false, '#' :: cs)
  | '!' :: '/' :: cs => (.keep, true, cs)
  | '!' :: cs => (.keep, false, cs)
  | '/' :: cs => (.leaveOut, true, cs)
  | cs => (.leaveOut, false, cs)

/-- Splits off a slash at the end, together with a backslash in front of it. -/
def withoutSlash (cs : List Char) : Bool × List Char :=
  match cs.reverse with
  | '/' :: '\\' :: more => (true, more.reverse)
  | '/' :: more => (true, more.reverse)
  | _ => (false, cs)

/-- The glob for a rule on paths relative to the folder of the ignore file. One that is bound
neither by its beginning nor by a slash may begin at any depth, and one for everything below a
folder does not describe the folder. -/
def pattern (bound : Bool) (cs : List Char) : List Char :=
  let anyDepth := !bound && !cs.contains '/' && cs != ['*', '*']
  let cs := if anyDepth then ['*', '*', '/'] ++ cs else cs
  if ['/', '*', '*'].isSuffixOf cs then cs ++ ['/', '*'] else cs

/-- The rule that a line says. Empty lines, comments and lines that are no globs say none. -/
def ofLine? (line : List Char) : Option IgnoreRule :=
  if ['#'].isPrefixOf line then none
  else
    let line := withoutTrail line
    if line.isEmpty then none
    else
      let (judgement, bound, cs) := front line
      let (foldersOnly, cs) := withoutSlash cs
      (Glob.ofChars? .literal (pattern bound cs)).map (⟨·, judgement, foldersOnly⟩)

/-- Whether a rule applies to a path, given relative to the folder of the ignore file. -/
def applies (r : IgnoreRule) (path : String) (isFolder : Bool) : Bool :=
  r.glob.accepts path && (!r.foldersOnly || isFolder)

/-- What rules say about a path; the last one that applies decides. -/
def judge (rules : List IgnoreRule) (path : String) (isFolder : Bool) : Option Judgement :=
  (rules.findRev? (·.applies path isFolder)).map IgnoreRule.judgement

/-- The lines of an ignore file up to the first one that is not UTF-8. A carriage return at the end
of a line does not belong to it. -/
def lines (bytes : List UInt8) : List (List Char) :=
  ((splitAll (· == 10) bytes).map fun line => String.fromUTF8? ⟨line.toArray⟩).takeWhile
    Option.isSome |>.filterMap fun line =>
      line.map fun line => (stripBack? ['\r'] line.toList).getD line.toList

/-- The rules of an ignore file. Byte order marks in front of the first line do not count. -/
def ofBytes (bytes : ByteArray) : List IgnoreRule :=
  match lines bytes.toList with
  | [] => []
  | line :: more => (line.dropWhile (· == '\ufeff') :: more).filterMap ofLine?

end IgnoreRule

end TerraformPins
