import TerraformPins.Batch
import TerraformPins.FileTree.Text

/-!
# Batch files

A batch is read from a file, given by a path as seen from the work directory.

## Main definitions

* `BatchFileError`: why a batch file is refused
* `Batch.ofFile`: the batch in a file
-/

namespace TerraformPins

/-- Why a batch file is refused. -/
inductive BatchFileError where
  | unreadable (path : String) (fault : IoFault)
  | invalid (error : BatchError)
  deriving DecidableEq, Repr, Inhabited

namespace BatchFileError

/-- The message for an error. -/
def message : BatchFileError → String
  | unreadable path _ => "unable to read batch file " ++ path
  | invalid error => error.message

end BatchFileError

/-- The batch in the file that a path reaches from a folder. -/
def Batch.ofFile (t : FileTree) (folder : Location) (path : String) : Except BatchFileError Batch :=
  match t.textFrom folder path with
  | .error fault => .error (.unreadable path fault)
  | .ok text => (Batch.ofText text).mapError .invalid

end TerraformPins
