import TerraformPins.Ignore.Scope

/-!
# Finding files

The files to change are given by a pattern. A pattern that is the path of a file means that file,
wherever it is. Any other pattern is a glob for the paths of regular files below a root; the search
does not go through links, and it leaves out what the ignore files say and what is hidden. A folder
that cannot be read is left out, and the search goes on behind it. The files are found in the order
of their names, component by component.

## Main definitions

* `FileTree.visible`: the files of a folder that a search comes to
* `FileTree.matching?`: the files that a pattern means
-/

namespace TerraformPins

namespace FileTree

/-- Whether a tree is a folder. -/
def isFolder : FileTree → Bool
  | folder .. => true
  | _ => false

mutual

/-- The files that a search comes to in `part`, the part of the tree `whole` at the location `here`,
as locations below `here`. The scopes are those of the folders around it, the deepest one first, and
`reached` says whether all these folders can be entered. A folder that cannot be reached or listed
has no files to come to. -/
def visible (whole : FileTree) (scopes : List IgnoreScope) (reached : Bool) (here : Location) :
    (part : FileTree) → List Location
  | .file _ => [[]]
  | .link _ => []
  | .folder access entries =>
    if reached && access.listable then
      visibleEntries whole (IgnoreScope.ofFolder whole here :: scopes) access.enterable here entries
    else []

/-- The files that a search comes to in some entries of a folder. -/
def visibleEntries (whole : FileTree) (scopes : List IgnoreScope) (reached : Bool)
    (here : Location) : List (String × FileTree) → List Location
  | [] => []
  | (name, part) :: entries =>
    (if IgnoreScope.leavesOut scopes here name part.isFolder then []
      else (visible whole scopes reached (here ++ [name]) part).map (name :: ·)) ++
      visibleEntries whole scopes reached here entries

end

/-- The files that a search below a path comes to, as locations below it. -/
def visibleBelow (t : FileTree) (root : String) : List Location :=
  match t.place root with
  | .ok place =>
    match t.get? place with
    | some part => t.visible (IgnoreScope.above t place) true place part
    | none => []
  | .error _ => []

/-- The path of a location below a path. -/
def pathBelow (root : String) (names : Location) : String :=
  names.foldl Path.join root

/-- The glob that a pattern says. One `./` in front does not count. -/
def globOf? (pattern : String) : Option Glob :=
  Glob.ofChars? .refused ((stripFront? ['.', '/'] pattern.toList).getD pattern.toList)

/-- The locations below a path that a glob describes, in order. -/
def matchingBelow (t : FileTree) (root : String) (glob : Glob) : List Location :=
  ((t.visibleBelow root).filter fun names => glob.accepts (Path.ofNames names)).mergeSort
    Location.le

/-- The paths of the files that a pattern means, or `none` if it is neither the path of a file nor a
glob. -/
def matching? (t : FileTree) (root pattern : String) : Option (List String) :=
  if t.isFile (Path.join root pattern) then some [Path.join root pattern]
  else (globOf? pattern).map fun glob => (t.matchingBelow root glob).map (pathBelow root)

end FileTree

end TerraformPins
