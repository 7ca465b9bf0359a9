import TerraformPins.Program

/-!
# The executable

The part of the file system that a run can look at is read into a file tree, the run is carried out
on it, and the files that have changed are written. What a run can look at are the folders and
files that the command line and the batch name, everything below the work directory, and the ignore
files of the folders around it. Whether files and folders can be opened is tried out; that a disk is
full, or that permission bits cannot be set, shows only when a file is written.
-/

namespace TerraformPins.Snapshot

/-- What is at a location of the file system, without following a link there. -/
def kindAt (folder : Location) (name : String) : IO (Option IO.FS.FileType) := do
  try
    let data ← (IO.FS.DirEntry.mk ⟨Path.ofLocation folder⟩ name).path.symlinkMetadata
    pure (some data.type)
  catch _ => pure none

/-- The names on the way to an absolute path. -/
def namesOf (path : String) : Location :=
  (Path.parts path).filter (!Path.isIdle ·)

/-- The location that a path leads to when its links are followed. -/
def realLocation? (path : String) : IO (Option Location) := do
  try
    pure (some (namesOf (← IO.FS.realPath path).toString))
  catch _ => pure none

/-- Whether an action goes through. -/
def succeeds {α : Type} (action : IO α) : IO Bool := do
  try
    let _ ← action
    pure true
  catch _ => pure false

/-- Adds a regular file. Every file is taken with the usual permission bits, since writing a file
does not change them. A file that cannot be opened is added without bytes. How much room there is
for it, and whether its permission bits can be set, is not found out before it is written. -/
def addFile (t : FileTree) (place : Location) : IO FileTree := do
  let path := Path.ofLocation place
  let readable ← succeeds (IO.FS.Handle.mk path .read)
  let writable ← succeeds (IO.FS.Handle.mk path .readWrite)
  let bytes ← try IO.FS.readBinFile path catch _ => pure .empty
  let writeFault? := if readable && !writable then some WriteFault.refused else none
  pure ((FileTree.file { bytes, mode := 0o644, readable, writeFault? }).insert place (some t))

/-- What can be done with a folder. -/
def accessAt (place : Location) : IO FolderAccess := do
  let listable ← succeeds do (← IO.FS.realPath (Path.ofLocation place)).readDir
  let enterable ← succeeds (IO.FS.DirEntry.mk ⟨Path.ofLocation place⟩ ".").path.metadata
  pure { listable, enterable }

/-- Adds a link, by the location that it leads to, and the file there. -/
def addLink (t : FileTree) (place : Location) : IO FileTree := do
  match ← realLocation? (Path.ofLocation place) with
  | none => pure ((FileTree.link (Path.ofLocation place)).insert place (some t))
  | some target =>
    let t := (FileTree.link (Path.ofLocation target)).insert place (some t)
    match target.getLast? with
    | none => pure t
    | some name =>
      match ← kindAt target.dropLast name with
      | some .file => addFile t target
      | _ => pure t

/-- Adds what is at a location: a file, a link, or a folder without its entries. -/
def addPlace (t : FileTree) (folder : Location) (name : String) : IO FileTree := do
  let place := folder ++ [name]
  match ← kindAt folder name with
  | some .file => addFile t place
  | some .dir => pure ((FileTree.folder (← accessAt place) []).insert place (some t))
  | some .symlink => addLink t place
  | _ => pure t

/-- Adds what the parts of a path name, one after another. -/
def addParts (t : FileTree) (here : Location) : List String → IO FileTree
  | [] => pure t
  | part :: parts => do
    if Path.isIdle part then addParts t here parts
    else if part = ".." then addParts t here.dropLast parts
    else
      let t ← addPlace t here part
      match ← realLocation? (Path.ofLocation (here ++ [part])) with
      | some next => addParts t next parts
      | none => pure t

/-- Adds what a path names, as seen from a folder. -/
def addPath (t : FileTree) (folder : Location) (path : String) : IO FileTree :=
  addParts t (FileTree.startOf folder path) (Path.parts path)

/-- Adds everything below a folder, at most `depth` folders deep. A folder that cannot be listed has
been added as such, and nothing below it is looked for. -/
def addBelow (t : FileTree) (folder : Location) : (depth : Nat) → IO FileTree
  | 0 => pure t
  | depth + 1 => do
    let entries ← try (← IO.FS.realPath (Path.ofLocation folder)).readDir catch _ => pure #[]
    entries.foldlM (fun t entry => do
      let t ← addPlace t folder entry.fileName
      match ← kindAt folder entry.fileName with
      | some .dir => addBelow t (folder ++ [entry.fileName]) depth
      | _ => pure t) t

/-- The longest chain of folders that is looked at. -/
def depthLimit : Nat := 2048

/-- Adds the ignore files of the folders around a location. -/
def addIgnoreFiles (t : FileTree) (place : Location) : IO FileTree :=
  (List.range place.length).foldlM (fun t n => do
    let folder := place.take n
    [".ignore", ".gitignore", ".git/info/exclude", ".jj"].foldlM (addPath · folder ·) t) t

/-- The part of the file system that a run can look at. -/
def forRun (workFolder : Location) (inv : Invocation) : IO FileTree := do
  let mut t ← addPath .empty [] (Path.ofLocation workFolder)
  let mut here := workFolder
  for path in inv.workFolders do
    t ← addPath t here path
    here := ((t.locate here path).toOption).getD here
  match inv.command with
  | .batch path => t ← addPath t here path
  | _ => pure ()
  if let .ok plan := inv.command.plan t here then
    t ← addPath t here (Program.pattern inv plan)
    t ← addIgnoreFiles t here
    t ← addBelow t here depthLimit
  pure t

/-- Writes the files that differ between two file trees. -/
def writeChanges (before after : FileTree) : IO Unit :=
  after.files.forM fun (place, data) => do
    unless (before.fileAt? place).any data.same do
      IO.FS.writeBinFile (Path.ofLocation place) data.bytes

end TerraformPins.Snapshot

open TerraformPins in
/-- Carries out a command line in the current directory. -/
def main (arguments : List String) : IO UInt32 := do
  let output ← match Invocation.ofArguments arguments with
    | .error e => pure (Program.instead e)
    | .ok inv => do
      let workFolder := ((← Snapshot.realLocation? ".")).getD []
      let before ← Snapshot.forRun workFolder inv
      let (output, after) := Program.carryOut before workFolder inv
      Snapshot.writeChanges before after
      pure output
  output.notes.forM IO.eprintln
  IO.print output.text
  pure (UInt32.ofNat output.exitCode)
