import TerraformPins.FileTree.Text
import TerraformPins.Ignore

/-!
# What is left out of a search

Every folder may hold ignore files for what is below it. The rules of `.ignore` come first; those of
`.gitignore`, and last those of `.git/info/exclude`, count only inside a repository and only up to
its topmost folder. Of each kind the deepest folder with a rule that applies decides. What no rule
applies to is left out if its name begins with a dot. Rules that a user has set up for all
repositories do not count, since they stand outside the folders that are searched.

## Main definitions

* `IgnoreScope`: the ignore files of a folder
* `IgnoreScope.above`: the scopes of the folders around a location
* `IgnoreScope.leavesOut`: whether a file or folder is left out
-/

namespace TerraformPins

/-- The ignore files of a folder. -/
structure IgnoreScope where
  /-- The number of names in the location of the folder. -/
  depth : Nat
  /-- The rules of `.ignore`. -/
  plain : List IgnoreRule
  /-- The rules of `.gitignore`. -/
  shared : List IgnoreRule
  /-- The rules of `.git/info/exclude`. -/
  personal : List IgnoreRule
  /-- Whether the folder is the topmost one of a repository. -/
  isRepository : Bool
  deriving Inhabited

namespace IgnoreScope

/-- The rules of the ignore file `path` in a folder. There are none if it cannot be read. -/
def rulesAt (t : FileTree) (folder : Location) (path : String) : List IgnoreRule :=
  match (t.locate folder path).bind t.bytesAt with
  | .ok bytes => IgnoreRule.ofBytes bytes
  | .error _ => []

/-- The scope of a folder. -/
def ofFolder (t : FileTree) (folder : Location) : IgnoreScope where
  depth := folder.length
  plain := rulesAt t folder ".ignore"
  shared := rulesAt t folder ".gitignore"
  personal := rulesAt t folder ".git/info/exclude"
  isRepository := (t.locate folder ".git").isOk || (t.locate folder ".jj").isOk

/-- The scopes of the folders around a location, the deepest one first. -/
def above (t : FileTree) (place : Location) : List IgnoreScope :=
  (List.range place.length).reverse.map fun n => ofFolder t (place.take n)

/-- The scopes up to the topmost folder of the repository, if there is one. -/
def inRepository (scopes : List IgnoreScope) : List IgnoreScope :=
  match scopes.findIdx? isRepository with
  | some n => scopes.take (n + 1)
  | none => []

/-- What the deepest scope says that says anything. -/
def judgeBy (rules : IgnoreScope → List IgnoreRule) (scopes : List IgnoreScope) (place : Location)
    (isFolder : Bool) : Option Judgement :=
  scopes.findSome? fun s =>
    IgnoreRule.judge (rules s) (Path.ofNames (place.drop s.depth)) isFolder

/-- What scopes say about a location, the deepest scope coming first. -/
def judge (scopes : List IgnoreScope) (place : Location) (isFolder : Bool) : Option Judgement :=
  (judgeBy plain scopes place isFolder).orElse fun _ =>
    (judgeBy shared (inRepository scopes) place isFolder).orElse fun _ =>
      judgeBy personal (inRepository scopes) place isFolder

/-- Whether a name begins with a dot. -/
def isHidden (name : String) : Bool :=
  ['.'].isPrefixOf name.toList

/-- Whether the file or folder `name` in the folder `folder` is left out. -/
def leavesOut (scopes : List IgnoreScope) (folder : Location) (name : String) (isFolder : Bool) :
    Bool :=
  match judge scopes (folder ++ [name]) isFolder with
  | some .leaveOut => true
  | some .keep => false
  | none => isHidden name

end IgnoreScope

end TerraformPins
