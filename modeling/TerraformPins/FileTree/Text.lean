import TerraformPins.FileTree.Lookup

/-!
# Text files

Documents are read from and written to regular files whose bytes are UTF-8. Writing changes the
bytes of a file that exists already; its permission bits stay. A write that fails may have changed
the file: some of the bytes are written, or all of them and then the permission bits cannot be set.

## Main definitions

* `FileError`: why a document cannot be read or written
* `File.overwrite`: writing over the bytes of a file
* `FileTree.readText`, `FileTree.writeText`: the text of a file
-/

namespace TerraformPins

/-- Why a document cannot be read or written. -/
inductive FileError where
  | notAFile (path : String)
  | io (path : String) (fault : IoFault)
  /-- The text of the file is not HCL. -/
  | notHcl (path : String)
  deriving DecidableEq, Repr, Inhabited

namespace FileError

/-- The path that the error is about. -/
def path : FileError → String
  | notAFile path | io path _ | notHcl path => path

/-- The message for an error. -/
def message : FileError → String
  | notAFile path => path ++ ": not a file"
  | io path _ => path ++ ": IO error"
  | notHcl path => path ++ ": unable to parse file"

end FileError

namespace File

/-- Writes over the bytes of a file: what comes of it, and the bytes afterwards. If there is too
little room, the bytes that fit are written. -/
def overwrite (data : File) (bytes : ByteArray) : Except IoFault Unit × ByteArray :=
  match data.writeFault? with
  | some .refused => (.error .denied, data.bytes)
  | some (.room count) =>
    if bytes.size ≤ count then (.ok (), bytes) else (.error .full, bytes.extract 0 count)
  | _ => (.ok (), bytes)

/-- Sets the permission bits of a file to what they are. -/
def setSameMode (data : File) : Except IoFault Unit :=
  if data.writeFault? = some .modeRefused then .error .denied else .ok ()

end File

namespace FileTree

/-- The bytes of the file at a location. -/
def bytesAt (t : FileTree) (place : Location) : Except IoFault ByteArray :=
  match t.get? place with
  | some (.file data) => if data.readable then .ok data.bytes else .error .denied
  | some (.folder access _) => .error (if access.listable then .isAFolder else .denied)
  | _ => .error .missing

/-- The text of the file that a path reaches from a folder. -/
def textFrom (t : FileTree) (folder : Location) (path : String) : Except IoFault String := do
  let place ← t.locate folder path
  let bytes ← t.bytesAt place
  match String.fromUTF8? bytes with
  | some text => .ok text
  | none => .error .notText

/-- The text of the file that an absolute path reaches. -/
def readText (t : FileTree) (path : String) : Except FileError String := do
  let place ← (t.place path).mapError (.io path)
  if (t.fileAt? place).isNone then .error (.notAFile path)
  else (t.textFrom [] path).mapError (.io path)

/-- Gives the file that an absolute path reaches another text, and its permission bits again: what
comes of it, and the file tree afterwards. A write leaves the permission bits, so to set them again
is to set them to what they are. -/
def writeText (t : FileTree) (path text : String) : Except FileError Unit × FileTree :=
  match t.place path with
  | .error fault => (.error (.io path fault), t)
  | .ok place =>
    match t.fileAt? place with
    | none => (.error (.io path .isAFolder), t)
    | some data =>
      let (written, bytes) := data.overwrite text.toUTF8
      let done := do
        written
        data.setSameMode
      (done.mapError (.io path), t.setBytes bytes place)

end FileTree

end TerraformPins
