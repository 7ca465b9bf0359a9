import TerraformPins.Text

/-!
# File trees

A file tree is the state of a file system as a value: regular files with their bytes and permission
bits, symbolic links, and folders. It is seen by one user. So it says of a file whether it can be
read and how a write to it fails, and of a folder whether it can be listed and entered; how this
follows from owners, permission bits and the state of the disk is left open. A place in it is given
by its location, the names on the way from the root. A location says nothing about links: it names
the link itself. Names are texts, so what has another name has no place in a tree.

## Main definitions

* `Location`, `Location.le`: places in a file tree and their order
* `WriteFault`, `FolderAccess`: what can be done with files and folders
* `FileTree`: files, links and folders
* `FileTree.get?`: what is at a location
* `FileTree.setBytes`: other bytes for the file at a location
* `FileTree.insert`: a new file, link or folder
* `FileTree.files`: all regular files with their locations
-/

namespace TerraformPins

/-- A place in a file tree: the names on the way from the root. -/
abbrev Location := List String

namespace Location

/-- The order of names by their code points, which is also that of their bytes. -/
def nameLe (a b : String) : Bool :=
  lexLe (fun c d => decide (c.toNat ≤ d.toNat)) a.toList b.toList

/-- The order of locations, name by name. -/
def le (a b : Location) : Bool :=
  lexLe nameLe a b

end Location

/-- How writing to a file fails. -/
inductive WriteFault where
  /-- The file cannot be opened for writing. -/
  | refused
  /-- There is room for so many bytes only. -/
  | room (count : Nat)
  /-- The bytes can be written, but the permission bits cannot be set. -/
  | modeRefused
  deriving DecidableEq, Repr, Inhabited

/-- A regular file. -/
structure File where
  bytes : ByteArray
  /-- The permission bits. -/
  mode : Nat
  /-- Whether the file can be opened for reading. -/
  readable : Bool := true
  /-- How writing fails, if it does. -/
  writeFault? : Option WriteFault := none
  deriving Inhabited

namespace File

/-- Whether two files have the same bytes and the same permission bits. -/
def same (a b : File) : Bool :=
  a.bytes.data.toList == b.bytes.data.toList && a.mode == b.mode

end File

/-- What can be done with a folder. -/
structure FolderAccess where
  /-- Whether its entries can be listed. -/
  listable : Bool := true
  /-- Whether paths can lead through it. -/
  enterable : Bool := true
  deriving DecidableEq, Repr, Inhabited

/-- Files, links and folders. -/
inductive FileTree where
  | file (data : File)
  | link (target : String)
  | folder (access : FolderAccess) (entries : List (String × FileTree))
  deriving Inhabited

namespace FileTree

/-- A folder without entries. -/
def empty : FileTree := .folder {} []

/-- What is at a location. -/
def get? : FileTree → Location → Option FileTree
  | t, [] => some t
  | .folder _ entries, name :: names => (entries.lookup name).bind fun t => t.get? names
  | _, _ :: _ => none

/-- Gives the file at a location other bytes. The permission bits stay, and so does everything else;
if there is no file, nothing is changed. -/
def setBytes (bytes : ByteArray) : FileTree → Location → FileTree
  | .file data, [] => .file { data with bytes := bytes }
  | .folder access entries, name :: names =>
    .folder access (entries.map fun (n, t) => (n, if n = name then t.setBytes bytes names else t))
  | t, _ => t

/-- Gives the entry `name` of a list the value that `change` makes of the present one. A new entry
goes to the end. -/
def setEntry (name : String) (change : Option FileTree → FileTree) :
    List (String × FileTree) → List (String × FileTree)
  | [] => [(name, change none)]
  | (n, t) :: entries =>
    if n = name then (n, change (some t)) :: entries else (n, t) :: setEntry name change entries

/-- Puts a tree at a location. Folders on the way are made. A folder that is there already takes the
place of a new empty one, and anything else there is replaced. -/
def insert (new : FileTree) : Location → Option FileTree → FileTree
  | [], some (.folder access entries) => match new with
    | .folder .. => .folder access entries
    | _ => new
  | [], _ => new
  | name :: names, some (.folder access entries) =>
    .folder access (setEntry name (new.insert names) entries)
  | name :: names, _ => .folder {} [(name, new.insert names none)]

mutual

/-- All regular files with their locations. -/
def files : FileTree → List (Location × File)
  | .file data => [([], data)]
  | .link _ => []
  | .folder _ entries => entryFiles entries

/-- All regular files below the entries of a folder. -/
def entryFiles : List (String × FileTree) → List (Location × File)
  | [] => []
  | (name, t) :: entries =>
    (t.files.map fun (names, data) => (name :: names, data)) ++ entryFiles entries

end

end FileTree

end TerraformPins
