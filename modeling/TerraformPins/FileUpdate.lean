import TerraformPins.FileTree.Text
import TerraformPins.Update

/-!
# Updating files

The files are taken one after another, each as the files before it have left the file tree. A file
is read, updated, and written if a version has changed, unless the run is dry. A file that cannot
be read or written adds an error; the files behind it are still taken.

## Main definitions

* `Job`: what is to be done with every file
* `FileReport`, `RunReport`: what was done
* `Job.updateFile`, `Job.updateFiles`: updating files
-/

namespace TerraformPins

/-- What is to be done with every file. -/
structure Job where
  upgrades : List Upgrade
  /-- Whether pins without a version get one. -/
  addMissing : Bool := false
  /-- Whether files are left as they are. -/
  dryRun : Bool := false
  deriving DecidableEq, Repr, Inhabited

/-- What was done with a file that could be updated. -/
structure FileReport where
  path : String
  outcome : Outcome
  written : Bool
  deriving DecidableEq, Repr, Inhabited

namespace FileReport

/-- Whether a version has changed, be it in a dry run. -/
def changed (r : FileReport) : Bool :=
  r.outcome.changed

end FileReport

/-- What was done with files: the reports on those that could be updated and the errors of the
others, each in order. -/
structure RunReport where
  files : List FileReport := []
  errors : List FileError := []
  deriving DecidableEq, Repr, Inhabited

namespace RunReport

/-- Puts what was done with one more file in front. -/
def cons : (result : Except FileError FileReport) → RunReport → RunReport
  | .ok file, r => { r with files := file :: r.files }
  | .error e, r => { r with errors := e :: r.errors }

/-- The number of files with a changed version. -/
def changedFiles (r : RunReport) : Nat :=
  r.files.countP FileReport.changed

/-- The number of changes in all files. -/
def changeCount (r : RunReport) : Nat :=
  (r.files.flatMap fun file => file.outcome.changes).length

end RunReport

namespace Job

/-- Updates a document. -/
def updateDocument (job : Job) (d : Document) : Outcome × Document :=
  d.update job.upgrades job.addMissing

/-- The document in a file. -/
def load (t : FileTree) (path : String) : Except FileError Document := do
  let text ← t.readText path
  match Document.read? text with
  | some d => .ok d
  | none => .error (.notHcl path)

/-- Updates the file that an absolute path reaches: the report or the error, and the file tree
afterwards. -/
def updateFile (job : Job) (t : FileTree) (path : String) :
    Except FileError FileReport × FileTree :=
  match load t path with
  | .error e => (.error e, t)
  | .ok d =>
    let (outcome, d) := job.updateDocument d
    let written := outcome.changed && !job.dryRun
    let (done, t) := if written then t.writeText path d.text else (.ok (), t)
    (done.map fun _ => ⟨path, outcome, written⟩, t)

/-- Updates files one after another. -/
def updateFiles (job : Job) (t : FileTree) : List String → RunReport × FileTree
  | [] => ({}, t)
  | path :: paths =>
    let (result, t) := job.updateFile t path
    let (more, t) := job.updateFiles t paths
    (.cons result more, t)

end Job

end TerraformPins
