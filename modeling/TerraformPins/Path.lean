import TerraformPins.Text

/-!
# Path texts

A path is kept as the text that the user gave, so that reports show it in the same form. Only the
places where its components matter take it apart: looking it up in a file tree, and showing it
relative to the work directory.

## Main definitions

* `Path.join`: a path below another one
* `Path.parts`: the parts between the slashes
* `Path.under?`: what is left of a path below a folder
-/

namespace TerraformPins.Path

/-- Whether a path starts at the root of the file system. -/
def isAbsolute (path : String) : Bool :=
  ['/'].isPrefixOf path.toList

/-- The path `path` as seen from `folder`. An absolute path does not depend on the folder. -/
def join (folder path : String) : String :=
  if isAbsolute path then path
  else if folder.isEmpty || ['/'].isSuffixOf folder.toList then folder ++ path
  else folder ++ "/" ++ path

/-- The parts of a path between the slashes. Some of them may be empty. -/
def parts (path : String) : List String :=
  (splitAll (· == '/') path.toList).map String.ofList

/-- The path that consists of the given names. -/
def ofNames (names : List String) : String :=
  String.ofList (joinWith ['/'] (names.map String.toList))

/-- The absolute path of a location. -/
def ofLocation (names : List String) : String :=
  "/" ++ ofNames names

/-- Whether a part of a path leaves the folder as it is. -/
def isIdle (part : String) : Bool :=
  part == "" || part == "."

/-- Strips the names of a folder from the parts of a path; idle parts do not count. -/
def underParts? : (folder path : List String) → Option (List String)
  | [], path => some (path.dropWhile isIdle)
  | _ :: _, [] => none
  | name :: names, part :: path =>
    if isIdle part then underParts? (name :: names) path
    else if part = name then underParts? names path
    else none

/-- What is left of an absolute path below the folder at a location, if it is written below it. -/
def under? (folder : List String) (path : String) : Option String :=
  if isAbsolute path then (underParts? folder (parts path)).map ofNames else none

end TerraformPins.Path
