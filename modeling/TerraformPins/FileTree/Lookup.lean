import TerraformPins.FileTree
import TerraformPins.Path

/-!
# Looking up paths

A path is looked up part by part. An empty part or `.` stays in the folder and `..` leaves it, so
each of them needs a folder to be in. For every part but an empty one it has to be a folder that can
be entered. A link on the way is replaced by its target, and the rest of the path goes on from
there; at most `linkLimit` links are followed for one path. What comes out is a location without
links on the way, so two paths reach the same file exactly if they have the same location.

## Main definitions

* `IoFault`: why a path cannot be looked up, or a file not be read or written
* `FileTree.locate`: the location that a path reaches
-/

namespace TerraformPins

/-- Why a path cannot be looked up, or a file not be read or written. -/
inductive IoFault where
  | missing
  | notAFolder
  | isAFolder
  /-- The bytes are not UTF-8. -/
  | notText
  | tooManyLinks
  /-- A folder cannot be entered, or a file or folder not be opened. -/
  | denied
  /-- There is no room for the bytes. -/
  | full
  deriving DecidableEq, Repr, Inhabited

namespace FileTree

/-- Where following a path comes to a stop. -/
inductive Stop where
  | reached (place : Location)
  | failed (fault : IoFault)
  /-- At a link in the folder `here`, with the parts of the path behind it. -/
  | atLink (here : Location) (target : String) (rest : List String)
  deriving Inhabited

/-- Whether there is a folder at a location. -/
def isFolderAt (t : FileTree) (place : Location) : Bool :=
  match t.get? place with
  | some (.folder ..) => true
  | _ => false

/-- Whether there is a folder at a location whose entries can be listed. -/
def canList (t : FileTree) (place : Location) : Bool :=
  match t.get? place with
  | some (.folder access _) => access.listable
  | _ => false

/-- Whether there is a folder at a location that paths can lead through. -/
def canEnter (t : FileTree) (place : Location) : Bool :=
  match t.get? place with
  | some (.folder access _) => access.enterable
  | _ => false

/-- Follows the parts of a path from a location up to the end or to the first link. -/
def follow (t : FileTree) (place : Location) : List String → Stop
  | [] => .reached place
  | part :: parts =>
    if !t.isFolderAt place then .failed .notAFolder
    else if part ≠ "" && !t.canEnter place then .failed .denied
    else if Path.isIdle part then t.follow place parts
    else if part = ".." then t.follow place.dropLast parts
    else
      match t.get? (place ++ [part]) with
      | none => .failed .missing
      | some (.link target) => .atLink place target parts
      | some _ => t.follow (place ++ [part]) parts

/-- Where a path starts that is seen from a folder. -/
def startOf (folder : Location) (path : String) : Location :=
  if Path.isAbsolute path then [] else folder

/-- The location that the parts of a path reach if at most `links` links are followed. -/
def locateParts (t : FileTree) : (links : Nat) → Location → List String → Except IoFault Location
  | links, place, parts =>
    match t.follow place parts with
    | .reached place => .ok place
    | .failed fault => .error fault
    | .atLink here target rest =>
      match links with
      | 0 => .error .tooManyLinks
      | links + 1 => t.locateParts links (startOf here target) (Path.parts target ++ rest)

/-- The number of links that are followed for one path. -/
def linkLimit : Nat := 40

/-- The location that a path reaches from a folder. -/
def locate (t : FileTree) (folder : Location) (path : String) : Except IoFault Location :=
  if path.isEmpty then .error .missing
  else t.locateParts linkLimit (startOf folder path) (Path.parts path)

/-- The location that an absolute path reaches. -/
def place (t : FileTree) (path : String) : Except IoFault Location :=
  t.locate [] path

/-- The regular file at a location. -/
def fileAt? (t : FileTree) (place : Location) : Option File :=
  match t.get? place with
  | some (.file data) => some data
  | _ => none

/-- The regular file that a path reaches. -/
def file? (t : FileTree) (path : String) : Option File :=
  (t.place path).toOption.bind t.fileAt?

/-- Whether a path reaches a regular file. -/
def isFile (t : FileTree) (path : String) : Bool :=
  (t.file? path).isSome

end FileTree

end TerraformPins
