import TerraformPins.Batch.File
import TerraformPins.CommandLine
import TerraformPins.Discovery
import TerraformPins.Report

/-!
# The program

A run takes a file tree, the work directory and a command line, and gives what the user sees and
the file tree afterwards. It goes to the folders that the command line names, plans the upgrades,
finds the files and updates them. Everything that can stop the run as a whole happens before the
first file is written.

Below an error the program also prints what has caused it: the words of the operating system for a
file or folder, and those of the parser for a text that is no HCL or no batch. They are not part of
the output here. An error has its own message and nothing else. The wording of the help and of the
messages about a wrong command line is chosen here. What is printed is taken to arrive: a run does
not see whether it does.

## Main definitions

* `Program.Output`: what the user sees
* `RunError`: why a run stops as a whole
* `Program.run`: a run
-/

namespace TerraformPins

/-- The upgrades of a run and what comes with them. -/
structure Plan where
  upgrades : List Upgrade
  /-- The pattern of the files to change, if the command says one. -/
  files : Option String := none
  addMissing : Bool := false
  /-- Whether the upgrades come from a batch file. -/
  isBatch : Bool := false
  warnings : List String := []
  deriving DecidableEq, Repr, Inhabited

/-- Why a run stops as a whole. -/
inductive RunError where
  | unknownFolder (path : String)
  | notAWorkFolder (place : Location)
  | batch (error : BatchFileError)
  | invalidPattern
  deriving DecidableEq, Repr, Inhabited

namespace RunError

/-- The message for an error. -/
def message : RunError → String
  | unknownFolder path => "Failed to resolve path for -C/--directory " ++ path
  | notAWorkFolder place => "Failed to set work directory to " ++ Path.ofLocation place
  | batch error => error.message
  | invalidPattern => "invalid file pattern"

end RunError

namespace Upgrade

/-- The warning for an upgrade that is meant for local modules. -/
def localWarning? (u : Upgrade) : Option String :=
  match u.kind, u.key with
  | .module, some source =>
    if isLocalSource source then
      some ("warning: " ++ source ++ " is a local module source, local modules have no version")
    else none
  | _, _ => none

end Upgrade

namespace Command

/-- The plan for a command in a work directory. -/
def plan (t : FileTree) (workFolder : Location) : Command → Except RunError Plan
  | .upgrade u => .ok { upgrades := [u], warnings := u.localWarning?.toList }
  | .batch path =>
    match Batch.ofFile t workFolder path with
    | .ok b => .ok ⟨b.upgrades, b.files, b.addMissing, true, []⟩
    | .error e => .error (.batch e)

end Command

namespace Program

/-- What the user sees of a run. -/
structure Output where
  exitCode : Nat
  /-- The text on the standard output. -/
  text : String := ""
  /-- The lines on the standard error output, without the causes of errors. -/
  notes : List String := []
  deriving DecidableEq, Repr, Inhabited

/-- The text for the setting `--version`. -/
def versionText : String := "tfbump 0.1.0\n"

/-- The text for the setting `--help`. -/
def helpText : String :=
  "Set the versions of modules, providers and terraform in place\n\n" ++
  "Usage: tfbump [OPTIONS] module SOURCE VERSION\n" ++
  "       tfbump [OPTIONS] provider NAME VERSION\n" ++
  "       tfbump [OPTIONS] terraform VERSION\n" ++
  "       tfbump [OPTIONS] batch FILE\n\n" ++
  "Options:\n" ++
  "  -C, --directory DIRECTORY     change the work directory\n" ++
  "  -f, --files FILES             files to update, as a path or glob\n" ++
  "  -n, --dry-run                 report without writing any file\n" ++
  "      --force-add               add a version to blocks that have none\n" ++
  "  -v, --verbose                 also report blocks that were skipped\n" ++
  "  -F, --output-format FORMAT    text, json or yaml\n" ++
  "      --from VERSION            only update blocks at this version\n" ++
  "      --ignore-version VERSION  leave blocks at this version\n" ++
  "      --ignore-name PATTERN     leave blocks with such a name\n" ++
  "  -h, --help                    show this text\n" ++
  "  -V, --version                 show the version\n"

/-- The folder that is reached by going to folders one after another. -/
def enter (t : FileTree) : (workFolder : Location) → List String → Except RunError Location
  | workFolder, [] => .ok workFolder
  | workFolder, path :: paths =>
    match t.locate workFolder path with
    | .error _ => .error (.unknownFolder path)
    | .ok place =>
      if t.canEnter place then enter t place paths else .error (.notAWorkFolder place)

/-- The output of a run that stops as a whole. The causes of the error are left out. -/
def stopped (warnings : List String) (e : RunError) : Output :=
  { exitCode := 1, notes := warnings ++ [e.message] }

/-- The pattern of the files if nothing else is said. -/
def defaultPattern : String := "**/*.tf"

/-- The pattern of the files. The command line prevails over the batch. -/
def pattern (inv : Invocation) (plan : Plan) : String :=
  (inv.files.orElse fun _ => plan.files).getD defaultPattern

/-- What is to be done with every file. -/
def job (inv : Invocation) (plan : Plan) : Job :=
  ⟨plan.upgrades, inv.addMissing || plan.addMissing, inv.dryRun⟩

/-- The output of a run that came to its end. The causes of the errors are left out. -/
def finished (inv : Invocation) (plan : Plan) (workFolder : Location) (isEmpty : Bool)
    (r : RunReport) : Output :=
  let view : ReportView := ⟨workFolder, inv.dryRun, inv.verbose, !plan.isBatch⟩
  let early := plan.warnings ++
    (if isEmpty then ["warning: no files match " ++ pattern inv plan] else []) ++
    r.errors.map fun e => "error: " ++ e.message
  let exitCode := if r.errors.isEmpty then 0 else 1
  match inv.form with
  | .text =>
    ⟨exitCode, String.join ((r.lines view).map (· ++ "\n")), early ++ r.localWarnings view⟩
  | .json => ⟨exitCode, (r.datum inv.dryRun).json, early⟩
  | .yaml => ⟨exitCode, (r.datum inv.dryRun).yaml, early⟩

/-- Carries out what a command line asks for. -/
def carryOut (t : FileTree) (workFolder : Location) (inv : Invocation) : Output × FileTree :=
  match enter t workFolder inv.workFolders with
  | .error e => (stopped [] e, t)
  | .ok workFolder =>
    match inv.command.plan t workFolder with
    | .error e => (stopped [] e, t)
    | .ok plan =>
      match t.matching? (Path.ofLocation workFolder) (pattern inv plan) with
      | none => (stopped plan.warnings .invalidPattern, t)
      | some paths =>
        let (report, t) := (job inv plan).updateFiles t paths
        (finished inv plan workFolder paths.isEmpty report, t)

/-- The output for a command line that asks for no run. -/
def instead : EarlyExit → Output
  | .version => { exitCode := 0, text := versionText }
  | .help => { exitCode := 0, text := helpText }
  | .usage e => { exitCode := 2, notes := [e.message] }

/-- A run in a work directory. -/
def run (t : FileTree) (workFolder : Location) (arguments : List String) : Output × FileTree :=
  match Invocation.ofArguments arguments with
  | .ok inv => carryOut t workFolder inv
  | .error e => (instead e, t)

end Program

end TerraformPins
