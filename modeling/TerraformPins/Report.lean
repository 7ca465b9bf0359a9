import TerraformPins.Datum.Json
import TerraformPins.Datum.Yaml
import TerraformPins.FileUpdate

/-!
# Reports

What a run did is reported in lines for a reader, or as structured data. The lines show paths
relative to the work directory; the data show them as they are, and hold all refusals.

## Main definitions

* `RunReport.datum`: a report as data
* `RunReport.lines`: a report in lines
* `RunReport.localWarnings`: warnings about modules with a local source
-/

namespace TerraformPins

namespace Change

/-- A change as data. -/
def datum (c : Change) : Datum :=
  .fields
    [("kind", .text c.kind.word), ("name", .text c.name), ("from", .ofText? c.before),
      ("to", .text c.after)]

end Change

namespace Refusal

/-- A refusal as data. -/
def datum (r : Refusal) : Datum :=
  .fields
    [("kind", .text r.kind.word), ("name", .text r.name), ("reason", .text r.reason.word),
      ("version", .ofText? r.version)]

end Refusal

namespace FileReport

/-- A report on a file as data. -/
def datum (r : FileReport) : Datum :=
  .fields
    [("path", .text r.path), ("changed", .truth r.changed), ("written", .truth r.written),
      ("actions", .list (r.outcome.changes.map Change.datum)),
      ("skips", .list (r.outcome.refusals.map Refusal.datum))]

/-- The path of a file relative to the work directory, if it is written below it. -/
def shownPath (workFolder : Location) (r : FileReport) : String :=
  (Path.under? workFolder r.path).getD r.path

end FileReport

/-- What the lines of a report show. -/
structure ReportView where
  workFolder : Location
  dryRun : Bool
  /-- Whether refusals are shown. -/
  verbose : Bool
  /-- Whether there is a warning for each module with a local source in place of a line. -/
  warnsOfLocal : Bool
  deriving DecidableEq, Repr, Inhabited

namespace ReportView

/-- What stands in front of every line. -/
def mark (v : ReportView) : String :=
  if v.dryRun then "[dry-run] " else ""

/-- Whether a refusal is shown as a warning. -/
def isWarning (v : ReportView) (r : Refusal) : Bool :=
  r.reason == .localSource && v.warnsOfLocal

/-- The lines for a file: its changes, and its refusals in a verbose report. -/
def fileLines (v : ReportView) (r : FileReport) : List String :=
  let front := v.mark ++ r.shownPath v.workFolder ++ ": "
  r.outcome.changes.map (fun c => front ++ c.line) ++
    if v.verbose then
      (r.outcome.refusals.filter (!v.isWarning ·)).map fun s => front ++ "skipped " ++ s.line
    else []

/-- The warnings for a file. -/
def fileWarnings (v : ReportView) (r : FileReport) : List String :=
  (r.outcome.refusals.filter (v.isWarning ·)).map fun s =>
    "warning: " ++ r.shownPath v.workFolder ++ ": " ++ s.kind.word ++ " " ++ s.name ++
      " has a local source, skipped"

end ReportView

namespace RunReport

/-- A report as data. -/
def datum (r : RunReport) (dryRun : Bool) : Datum :=
  .fields
    [("dry_run", .truth dryRun), ("files", .list (r.files.map FileReport.datum)),
      ("errors", .list (r.errors.map fun e => .text e.message))]

/-- The last line of a report. -/
def summary (r : RunReport) (v : ReportView) : String :=
  v.mark ++ (if v.dryRun then "Would update " else "Updated ") ++
    toString r.changeCount ++ " version(s) in " ++ toString r.changedFiles ++ " of " ++
    toString (r.files.length + r.errors.length) ++ " file(s)"

/-- The lines of a report. -/
def lines (r : RunReport) (v : ReportView) : List String :=
  r.files.flatMap v.fileLines ++ [r.summary v]

/-- The warnings about modules with a local source. -/
def localWarnings (r : RunReport) (v : ReportView) : List String :=
  r.files.flatMap v.fileWarnings

end RunReport

end TerraformPins
