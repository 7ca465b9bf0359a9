import TerraformPins.Proofs.Abort
import TerraformPins.Proofs.BatchNode
import TerraformPins.Proofs.CommandLine
import TerraformPins.Proofs.DryRun

/-!
# One upgrade, asked for in two ways

An upgrade can be asked for by a command of its own, or by a batch that lists it alone. Once the
upgrades are known, a run depends only on the folders it goes to, the pattern of the files and what
is to be done with every file. These are the same for both, so both runs end in the same way. What
the user sees differs in modules with a local source only: a command warns of them, and a batch
reports them like every other pin that is left alone.

The pattern of the files in a batch is taken without the blanks at its ends, while the one of a
command line is taken as it is.

## Main definitions

* `Line.Asks` — the upgrade a command line asks for
* `Program.Ending`, `Program.conclude` — how a run ends once the upgrades are known
* `Line.AgreesWith` — command lines that differ in what a batch can say as well

## Main results

* `Program.carryOut_eq_conclude` — a run whose upgrades are known ends in this way
* `Program.Ending.apart_output` — what the user sees of one ending of two runs
* `Program.run_upgrade_eq_run_batch` — a command and a batch that lists its upgrade alone do the
  same
-/

namespace TerraformPins

/-! ### Reports without the modules with a local source -/

/-- A report on a file without the modules with a local source. -/
def FileReport.withoutLocal (r : FileReport) : FileReport :=
  { r with outcome := { r.outcome with
      refusals := r.outcome.refusals.filter (·.reason != .localSource) } }

/-- A report without the modules with a local source. -/
def RunReport.withoutLocal (r : RunReport) : RunReport :=
  { r with files := r.files.map FileReport.withoutLocal }

namespace RunReport

/-- Modules with a local source do not count in the summary. -/
theorem summary_withoutLocal (r : RunReport) (v : ReportView) :
    r.withoutLocal.summary v = r.summary v := by
  have changed : r.withoutLocal.changedFiles = r.changedFiles := by
    rw [changedFiles, changedFiles, withoutLocal, List.countP_map]
    rfl
  have count : r.withoutLocal.changeCount = r.changeCount := by
    rw [changeCount, changeCount, withoutLocal, List.flatMap_map]
    rfl
  have length : r.withoutLocal.files.length = r.files.length := List.length_map _
  rw [summary, summary, changed, count, length, withoutLocal]

variable {v : ReportView}

/-- If there are warnings of modules with a local source, the lines of a report leave them out. -/
theorem lines_withoutLocal (warns : v.warnsOfLocal = true) (r : RunReport) :
    r.withoutLocal.lines { v with warnsOfLocal := false } = r.lines v := by
  have here (f : FileReport) :
      ReportView.fileLines { v with warnsOfLocal := false } f.withoutLocal = v.fileLines f := by
    simp [ReportView.fileLines, ReportView.isWarning, ReportView.mark, FileReport.shownPath,
      FileReport.withoutLocal, warns, bne]
  rw [lines, lines, summary_withoutLocal, withoutLocal, List.flatMap_map]
  simp only [here]
  rfl

/-- Without refusals, the lines do not depend on how modules with a local source are told. -/
theorem lines_of_not_verbose (quiet : v.verbose = false) (r : RunReport) :
    r.lines { v with warnsOfLocal := false } = r.lines v := by
  have here (f : FileReport) : ReportView.fileLines { v with warnsOfLocal := false } f =
      v.fileLines f := by
    simp [ReportView.fileLines, ReportView.mark, quiet]
  rw [lines, lines, funext here]
  rfl

/-- Where nothing is said of local sources, there are no warnings of them. -/
theorem localWarnings_eq_nil (quiet : v.warnsOfLocal = false) (r : RunReport) :
    r.localWarnings v = [] := by
  simp [localWarnings, ReportView.fileWarnings, ReportView.isWarning, quiet]

end RunReport

namespace Program

/-! ### How a run ends -/

/-- How a run ends: it stops as a whole, or it comes to a report on the files of a pattern. -/
inductive Ending where
  | stopped (e : RunError)
  | reported (workFolder : Location) (isEmpty : Bool) (report : RunReport)

/-- How a run ends that goes to folders, finds the files of a pattern and updates them, and the file
tree afterwards. -/
def conclude (t : FileTree) (workFolder : Location) (folders : List String) (pattern : String)
    (job : Job) : Ending × FileTree :=
  match enter t workFolder folders with
  | .error e => (.stopped e, t)
  | .ok workFolder =>
    match t.matching? (Path.ofLocation workFolder) pattern with
    | none => (.stopped .invalidPattern, t)
    | some paths =>
      let (report, t) := job.updateFiles t paths
      (.reported workFolder paths.isEmpty report, t)

namespace Ending

/-- What the user sees of an ending. The warnings of the plan are shown once the run comes to the
files. -/
def output (inv : Invocation) (plan : Plan) : Ending → Output
  | .stopped .invalidPattern => Program.stopped plan.warnings .invalidPattern
  | .stopped e => Program.stopped [] e
  | .reported workFolder isEmpty report => finished inv plan workFolder isEmpty report

/-- An ending with nothing about modules with a local source. -/
def withoutLocal : Ending → Ending
  | .stopped e => .stopped e
  | .reported workFolder isEmpty report => .reported workFolder isEmpty report.withoutLocal

/-- The warnings of a command about modules with a local source in its files. -/
def localWarnings (inv : Invocation) : Ending → List String
  | .stopped _ => []
  | .reported workFolder _ report =>
    report.localWarnings ⟨workFolder, inv.dryRun, inv.verbose, true⟩

end Ending

/-- Going to a folder never fails for the pattern. -/
theorem enter_ne_invalidPattern {t : FileTree} {here : Location} {folders : List String} :
    enter t here folders ≠ .error .invalidPattern := by
  induction folders generalizing here with
  | nil => exact fun same => nomatch same
  | cons path paths ih =>
    unfold enter
    split
    · exact fun same => nomatch same
    · split
      · exact ih
      · exact fun same => nomatch same

/-- A run whose upgrades are known depends on nothing but the folders, the pattern and the job. -/
theorem carryOut_eq_conclude {t : FileTree} {workFolder : Location} {inv : Invocation} {plan : Plan}
    (planned : ∀ here, Enters t workFolder inv.workFolders here →
      inv.command.plan t here = .ok plan) :
    carryOut t workFolder inv =
      (conclude t workFolder inv.workFolders (pattern inv plan) (job inv plan)).map
        (Ending.output inv plan) id := by
  cases entered : enter t workFolder inv.workFolders with
  | error e =>
    -- There is no plan yet, so nothing can be said about the pattern.
    have shown : Ending.output inv plan (.stopped e) = stopped [] e := by
      cases e with
      | invalidPattern => exact absurd entered enter_ne_invalidPattern
      | _ => rfl
    simp only [carryOut, conclude, entered, Prod.map, shown, id]
  | ok here =>
    simp only [carryOut, conclude, entered, planned here (enter_eq_ok_iff.mp entered)]
    cases t.matching? (Path.ofLocation here) (pattern inv plan) <;> rfl

/-! ### What the user sees -/

section Finished

variable (inv : Invocation) (plan : Plan) (here : Location) (isEmpty : Bool) (r : RunReport)

/-- A run that comes to its end exits with 0 if no file had an error, and with 1 otherwise. -/
theorem exitCode_finished :
    (finished inv plan here isEmpty r).exitCode = if r.errors.isEmpty then 0 else 1 := by
  unfold finished
  cases inv.form <;> rfl

/-- The text of a run that comes to its end, in the form that is asked for. -/
theorem text_finished :
    (finished inv plan here isEmpty r).text = match inv.form with
      | .text =>
        String.join ((r.lines ⟨here, inv.dryRun, inv.verbose, !plan.isBatch⟩).map (· ++ "\n"))
      | .json => (r.datum inv.dryRun).json
      | .yaml => (r.datum inv.dryRun).yaml := by
  unfold finished
  cases inv.form <;> rfl

/-- Its notes are the warnings of the plan, that no file matches, the errors and the warnings of
local sources, in this order. -/
theorem notes_finished :
    (finished inv plan here isEmpty r).notes = plan.warnings ++
      ((if isEmpty then ["warning: no files match " ++ pattern inv plan] else []) ++
        r.errors.map fun e => "error: " ++ e.message) ++
      if inv.form = .text then r.localWarnings ⟨here, inv.dryRun, inv.verbose, !plan.isBatch⟩
        else [] := by
  unfold finished
  cases inv.form <;> simp

end Finished

/-- What the user sees of one ending of two runs. The first one warns of modules with a local
source, in front of everything else and behind it, and leaves them out of its lines. -/
structure Ending.Apart (ending : Ending) (inv inv' : Invocation) (plan plan' : Plan) : Prop where
  exitCode : (ending.output inv plan).exitCode = (ending.output inv' plan').exitCode
  lines : inv.form = .text →
    (ending.output inv plan).text = (ending.withoutLocal.output inv' plan').text
  quiet : inv.form ≠ .text ∨ inv.verbose = false →
    (ending.output inv plan).text = (ending.output inv' plan').text
  notes : ∃ front back, (ending.output inv plan).notes =
    front ++ (ending.output inv' plan').notes ++ back ∧
    (∀ note ∈ front, note ∈ plan.warnings) ∧ ∀ note ∈ back, note ∈ ending.localWarnings inv

section Apart

variable {inv inv' : Invocation} {plan plan' : Plan}

/-- Two runs that stop with the same error differ in the warnings of their plans at most. -/
theorem Ending.apart_stopped (e : RunError) (noWarnings : plan'.warnings = []) :
    (Ending.stopped e).Apart inv inv' plan plan' where
  exitCode := by cases e <;> rfl
  lines _ := by cases e <;> rfl
  quiet _ := by cases e <;> rfl
  notes := by
    cases e with
    | invalidPattern =>
      exact ⟨plan.warnings, [], by simp [output, Program.stopped, noWarnings], by simp, by simp⟩
    | _ => exact ⟨[], [], rfl, by simp, by simp⟩

/-- Two runs with the same settings, for a command and for a batch. -/
theorem Ending.apart_output (ending : Ending) (form : inv.form = inv'.form)
    (dryRun : inv.dryRun = inv'.dryRun) (verbose : inv.verbose = inv'.verbose)
    (samePattern : pattern inv plan = pattern inv' plan') (direct : plan.isBatch = false)
    (isBatch : plan'.isBatch = true) (noWarnings : plan'.warnings = []) :
    ending.Apart inv inv' plan plan' := by
  cases ending with
  | stopped e => exact apart_stopped e noWarnings
  | reported here isEmpty r =>
    -- The view of the command; the one of the batch differs from it in `warnsOfLocal` only.
    let view : ReportView := ⟨here, inv.dryRun, inv.verbose, true⟩
    let shown (lines : List String) := String.join (lines.map (· ++ "\n"))
    refine ⟨?_, fun isText => ?_, fun quiet => ?_, ?_⟩
    · exact (exitCode_finished ..).trans (exitCode_finished ..).symm
    · refine (text_finished ..).trans (Eq.trans ?_ (text_finished ..).symm)
      rw [← form, ← dryRun, ← verbose, direct, isBatch, isText]
      exact congrArg shown (RunReport.lines_withoutLocal (v := view) rfl r).symm
    · refine (text_finished ..).trans (Eq.trans ?_ (text_finished ..).symm)
      rw [← form, ← dryRun, ← verbose, direct, isBatch]
      cases shape : inv.form with
      | text =>
        have quiet : inv.verbose = false := quiet.resolve_left fun ne => ne shape
        exact congrArg shown (RunReport.lines_of_not_verbose (v := view) quiet r).symm
      | json => rfl
      | yaml => rfl
    · refine ⟨plan.warnings, if inv.form = .text then r.localWarnings view else [], ?_,
        fun _ member => member, fun note member => ?_⟩
      · -- A batch has no warnings of its own and none about modules with a local source.
        have batch := notes_finished inv' plan' here isEmpty r
        rw [RunReport.localWarnings_eq_nil (by rw [isBatch]; rfl), noWarnings, ite_self,
          List.nil_append, List.append_nil] at batch
        refine (notes_finished ..).trans ?_
        rw [samePattern, direct, ← batch]
        rfl
      · split at member
        · exact member
        · cases member

end Apart

end Program

/-! ### Commands and batches -/

namespace Line

/-- The upgrade that a command line asks for. -/
inductive Asks (l : Line) : Upgrade → Prop
  | module {source target : String} (word : l.word = .module)
      (arguments : l.arguments = [source, target]) :
      Asks l ⟨.module, some source, target, l.behind.values .onlyFrom, l.behind.values .keepVersion,
        l.behind.values .keepName⟩
  | provider {name target : String} (word : l.word = .provider)
      (arguments : l.arguments = [name, target]) :
      Asks l ⟨.provider, some name, target, l.behind.values .onlyFrom, l.behind.values .keepVersion,
        l.behind.values .keepName⟩
  | terraform {target : String} (word : l.word = .terraform) (arguments : l.arguments = [target]) :
      Asks l ⟨.terraform, none, target, l.behind.values .onlyFrom, l.behind.values .keepVersion,
        l.behind.values .keepName⟩

/-- A command line that asks for the batch in a file. -/
structure AsksForBatch (l : Line) (path : String) : Prop where
  word : l.word = .batch
  arguments : l.arguments = [path]
  named : path ≠ ""

/-- A command line has the settings of another one and those of its batch. The pattern of the other
command line prevails. -/
structure AgreesWith (l l' : Line) (files : Option String) (addMissing : Bool) : Prop where
  same : ∀ s ∈ [Setting.workFolder, .dryRun, .verbose, .form], l.values s = l'.values s
  files : (l.values .files).head? = (l'.values .files).head?.or files
  addMissing : l.has .addMissing = (l'.has .addMissing || addMissing)

variable {l l' : Line} {u : Upgrade} {path : String}

/-- A line that asks for an upgrade is taken for it. -/
theorem ofChoices_of_asks (asks : l.Asks u) :
    Command.ofChoices l.word (.of l.behind l.arguments) = .ok (.upgrade u) := by
  cases asks with
  | module word arguments | provider word arguments | terraform word arguments =>
    rw [word, arguments]
    rfl

/-- A line that asks for a batch is taken for it. -/
theorem ofChoices_of_asksForBatch (asks : l.AsksForBatch path) :
    Command.ofChoices l.word (.of l.behind l.arguments) = .ok (.batch path) := by
  have filled : path.isEmpty = false := by simpa using asks.named
  rw [asks.word, asks.arguments]
  simp [Command.ofChoices, Choices.of, filled]

end Line

/-- The plan of a command for one upgrade. -/
def Plan.ofUpgrade (u : Upgrade) : Plan :=
  { upgrades := [u], warnings := u.localWarning?.toList }

/-- The plan of a batch. -/
def Plan.ofBatch (b : Batch) : Plan :=
  ⟨b.upgrades, b.files, b.addMissing, true, []⟩

/-- The plan of a batch that lists one upgrade. -/
theorem Command.plan_of_aloneIn {t : FileTree} {here : Location} {path text : String}
    {node : Yaml.Node} {u : Upgrade} {files : Option String} {addMissing : Bool}
    (present : t.textFrom here path = .ok text) (read : Yaml.Node.ofText? text = some node)
    (alone : u.AloneIn files addMissing node) (clean : u.IsTrimmed) :
    (Command.batch path).plan t here = .ok (.ofBatch ⟨filled? files, addMissing, [u]⟩) := by
  simp only [plan, Batch.ofFile, present, Batch.ofText_of_aloneIn read alone clean, Except.mapError]
  rfl

namespace Line.AgreesWith

variable {l l' : Line} {files : Option String} {addMissing : Bool}
  (agree : l.AgreesWith l' files addMissing) (c c' : Command)
include agree

theorem workFolders_eq : (l.invocation c).workFolders = (l'.invocation c').workFolders :=
  agree.same .workFolder (by simp)

theorem dryRun_eq : (l.invocation c).dryRun = (l'.invocation c').dryRun :=
  congrArg (fun values => !List.isEmpty values) (agree.same .dryRun (by simp))

theorem verbose_eq : (l.invocation c).verbose = (l'.invocation c').verbose :=
  congrArg (fun values => !List.isEmpty values) (agree.same .verbose (by simp))

theorem form_eq : (l.invocation c).form = (l'.invocation c').form :=
  congrArg (fun values => (values.head?.bind ReportForm.ofName?).getD .text)
    (agree.same .form (by simp))

/-- The pattern of a batch counts as if it were given on the command line, behind the one that
is. -/
theorem pattern_eq (u : Upgrade) (us : List Upgrade) :
    Program.pattern (l.invocation c) (.ofUpgrade u) =
      Program.pattern (l'.invocation c') (.ofBatch ⟨files, addMissing, us⟩) := by
  have given : (l.invocation c).files = (l'.invocation c').files.or files := agree.files
  simp only [Program.pattern, given, Option.orElse_eq_or, Option.or_none, Plan.ofUpgrade,
    Plan.ofBatch]

/-- What is to be done with every file is the same for both lines. -/
theorem job_eq (u : Upgrade) :
    Program.job (l.invocation c) (.ofUpgrade u) =
      Program.job (l'.invocation c') (.ofBatch ⟨files, addMissing, [u]⟩) := by
  have flag : (l.invocation c).addMissing = ((l'.invocation c').addMissing || addMissing) :=
    agree.addMissing
  simp only [Program.job, flag, agree.dryRun_eq c c', Plan.ofUpgrade, Plan.ofBatch, Bool.or_false]

end Line.AgreesWith

namespace Program

/-- A command and a batch that lists its upgrade alone do the same. The file tree afterwards is the
same, and so are the exit code, the files of the report and its errors. The outputs differ at most
in modules with a local source. The texts of the upgrade have no blanks at their ends; the pattern
in the batch may have some, and stands for the one without them. -/
theorem run_upgrade_eq_run_batch {t : FileTree} {workFolder : Location} {l l' : Line}
    {direct viaBatch : List String} {u : Upgrade} {path text : String} {node : Yaml.Node}
    {files : Option String} {addMissing : Bool}
    (spells : l.Spells direct) (proper : l.Proper) (asks : l.Asks u) (clean : u.IsTrimmed)
    (spells' : l'.Spells viaBatch) (proper' : l'.Proper) (asksForBatch : l'.AsksForBatch path)
    (agree : l.AgreesWith l' (filled? files) addMissing)
    (present : ∀ here, Enters t workFolder (l.values .workFolder) here →
      t.textFrom here path = .ok text)
    (read : Yaml.Node.ofText? text = some node) (alone : u.AloneIn files addMissing node) :
    ∃ ending : Ending, ∃ after : FileTree,
      run t workFolder direct =
          (ending.output (l.invocation (.upgrade u)) (.ofUpgrade u), after) ∧
        run t workFolder viaBatch =
          (ending.output (l'.invocation (.batch path)) (.ofBatch ⟨filled? files, addMissing, [u]⟩),
            after) ∧
        ending.Apart (l.invocation (.upgrade u)) (l'.invocation (.batch path)) (.ofUpgrade u)
          (.ofBatch ⟨filled? files, addMissing, [u]⟩) := by
  let plan := Plan.ofUpgrade u
  let plan' := Plan.ofBatch ⟨filled? files, addMissing, [u]⟩
  let inv := l.invocation (.upgrade u)
  let inv' := l'.invocation (.batch path)
  have folders : inv.workFolders = inv'.workFolders := agree.workFolders_eq _ _
  have samePattern : pattern inv plan = pattern inv' plan' := agree.pattern_eq _ _ _ _
  have sameJob : job inv plan = job inv' plan' := agree.job_eq _ _ _
  have planned' : ∀ here, Enters t workFolder inv'.workFolders here →
      inv'.command.plan t here = .ok plan' := by
    intro here enters
    rw [← folders] at enters
    exact Command.plan_of_aloneIn (present here enters) read alone clean
  have parsed := Line.ofArguments_of_spells spells proper (Line.ofChoices_of_asks asks)
  have parsed' :=
    Line.ofArguments_of_spells spells' proper' (Line.ofChoices_of_asksForBatch asksForBatch)
  -- Both runs end as one does that goes to these folders with this pattern and this job.
  have ends := @carryOut_eq_conclude t workFolder inv plan fun _ _ => rfl
  have ends' := carryOut_eq_conclude planned'
  rw [← folders, ← samePattern, ← sameJob] at ends'
  let concluded := conclude t workFolder inv.workFolders (pattern inv plan) (job inv plan)
  refine ⟨concluded.1, concluded.2, ?_, ?_, ?_⟩
  · rw [run, parsed]
    exact ends
  · rw [run, parsed']
    exact ends'
  · exact concluded.1.apart_output (agree.form_eq _ _) (agree.dryRun_eq _ _) (agree.verbose_eq _ _)
      samePattern rfl rfl rfl

/-! ### A module and a batch in one folder -/

/-- A module at version `"1"`. -/
def firstVersion : String :=
  "module \"a\" \x7b\n  source = \"s\"\n  version = \"1\"\n\x7d\n"

/-- A batch that lists version `"2"` for it and a pattern. -/
def batchFor (files : String) : String :=
  "files: \"" ++ files ++ "\"\nmodules:\n- source: \"s\"\n  version: \"2\"\n  from: \"1\"\n"

/-- A folder with both. -/
def treeFor (files : String) : FileTree :=
  .folder {} [("a.tf", .file { bytes := firstVersion.toUTF8, mode := 0o644 }),
    ("b.yaml", .file { bytes := (batchFor files).toUTF8, mode := 0o644 })]

/-- Version `"2"` for this module. -/
def secondForFirst : Upgrade :=
  ⟨.module, some "s", "2", ["1"], [], []⟩

/-- The command for this version, with a pattern. -/
def commandLineFor (files : String) : Line where
  word := .module
  behind := [(.onlyFrom, "1"), (.files, files)]
  arguments := ["s", "2"]

/-- One way to write it. -/
def argumentsFor (files : String) : List String :=
  ["module", "s", "2", "--from", "1", "-f", files]

/-- The command for the batch. -/
def batchLine : Line where
  word := .batch
  arguments := ["b.yaml"]

theorem spells_commandLineFor {files : String} (plain : Shape.ofArgument files = .plain) :
    (commandLineFor files).Spells (argumentsFor files) := by
  have version : Setting.onlyFrom.Written "1" ["--from", "1"] := .followed .name rfl rfl
  have pattern : Setting.files.Written files ["-f", files] := .followed (.letter rfl) rfl plain
  exact @Line.Spells.mk _ [] ["s", "2", "--from", "1", "-f", files] "module" .nil rfl
    (.argument rfl (.argument rfl (.setting rfl version (.setting rfl pattern .nil))))

theorem proper_commandLineFor (files : String) : (commandLineFor files).Proper where
  front := ⟨by simp [commandLineFor], by simp [commandLineFor], by simp [commandLineFor],
    by simp [commandLineFor, Given.values]⟩
  behind := ⟨by simp [commandLineFor], by simp [commandLineFor], by simp [commandLineFor],
    fun s _ => by cases s <;> simp [commandLineFor, Given.values]⟩

theorem asks_commandLineFor (files : String) : (commandLineFor files).Asks secondForFirst :=
  .module rfl rfl

theorem isTrimmed_secondForFirst : secondForFirst.IsTrimmed := by
  have texts : IsTrimmed "s" ∧ IsTrimmed "2" ∧ IsTrimmed "1" := by decide
  constructor <;> simp [secondForFirst, texts]

theorem spells_batchLine : batchLine.Spells ["batch", "b.yaml"] :=
  @Line.Spells.mk _ [] ["b.yaml"] "batch" .nil rfl (.argument rfl .nil)

theorem proper_batchLine : batchLine.Proper := by
  constructor <;> exact ⟨by simp [batchLine], by simp [batchLine], by simp [batchLine],
    by simp [batchLine, Given.values]⟩

/-- The two lines agree, once the pattern of the batch is given. -/
theorem agreesWith_batchLine (files : String) :
    (commandLineFor files).AgreesWith batchLine (some files) false where
  same := by simp [Line.values, commandLineFor, batchLine, Given.values]
  files := by simp [Line.values, commandLineFor, batchLine, Given.values]
  addMissing := by simp [Line.has, Line.values, commandLineFor, batchLine, Given.values]

/-- The only entry of this batch. -/
def batchEntry : List (String × Yaml.Node) :=
  [("source", .quoted "s"), ("version", .quoted "2"), ("from", .quoted "1")]

/-- A mapping with names as they are written without quotes. -/
def plainMapping (fields : List (String × Yaml.Node)) : Yaml.Node :=
  .mapping none (fields.map fun f => (.scalar none .plain f.1.toList, f.2))

/-- The batch in this folder, as a node. -/
def batchNodeFor (files : String) : Yaml.Node :=
  plainMapping [("files", .quoted files), ("modules", .list none [plainMapping batchEntry])]

theorem hasFields_plainMapping {known : List String} {fields : List (String × Yaml.Node)}
    (all : ∀ f ∈ fields, f.1 ∈ known) (distinct : (fields.map Prod.fst).Nodup) :
    (plainMapping fields).HasFields known fields where
  mapping := ⟨_, rfl, by simp [Yaml.Node.text?]⟩
  known := all
  distinct := distinct

theorem saidBy_batchEntry : secondForFirst.SaidBy .modules batchEntry where
  kind := rfl
  key := by
    rintro field ⟨⟩
    exact ⟨"s", rfl, by simp [batchEntry]⟩
  noKey := nofun
  version := by simp [batchEntry, secondForFirst]
  onlyFrom := .inl ⟨.quoted "1", by simp [batchEntry], .alone "1"⟩
  keepVersions := .inr ⟨by simp [batchEntry], rfl⟩
  keepNames := .inr ⟨by simp [batchEntry], rfl⟩

/-- The batch lists this upgrade and no other. -/
theorem aloneIn_batchNodeFor (files : String) :
    secondForFirst.AloneIn (some files) false (batchNodeFor files) := by
  have isEntry : (plainMapping batchEntry).HasFields BatchSection.modules.fields batchEntry :=
    hasFields_plainMapping (by simp [batchEntry, BatchSection.fields, BatchSection.keyField?])
      (by simp [batchEntry])
  have isBatch : (batchNodeFor files).HasFields ["files", "force_add", "modules", "providers",
      "terraform"] [("files", .quoted files), ("modules", .list none [plainMapping batchEntry])] :=
    hasFields_plainMapping (by simp) (by simp)
  refine .mk isBatch isEntry saidBy_batchEntry (by simp [BatchSection.word]) (.inl rfl) ?_
    (by simp [Yaml.FieldQuotes?]) (.inr ⟨by simp, rfl⟩)
  intro other differs node member
  cases other <;> simp_all [BatchSection.word]

/-- The batch in this folder, as tokens. -/
def batchTokensFor (files : String) : List Yaml.Token :=
  [.mappingStart, .key, .scalar .plain "files".toList, .value, .scalar .quoted files.toList,
    .key, .scalar .plain "modules".toList, .value,
    .item, .mappingStart, .key, .scalar .plain "source".toList, .value, .scalar .quoted "s".toList,
    .key, .scalar .plain "version".toList, .value, .scalar .quoted "2".toList,
    .key, .scalar .plain "from".toList, .value, .scalar .quoted "1".toList, .blockEnd, .blockEnd]

/-- The text of the batch is read from its tokens. -/
theorem ofText?_batchFor {files : String}
    (tokens : Yaml.Token.ofText? (batchFor files).toList = some (batchTokensFor files)) :
    Yaml.Node.ofText? (batchFor files) = some (batchNodeFor files) := by
  rw [Yaml.Node.ofText?, tokens]
  rfl

theorem ofText?_batchFor_blankInFront :
    Yaml.Node.ofText? (batchFor " a.tf") = some (batchNodeFor " a.tf") :=
  ofText?_batchFor (by decide +kernel)

/-- The text of the batch is found in the tree. -/
theorem textFrom_treeFor (files : String) :
    (treeFor files).textFrom [] "b.yaml" = .ok (batchFor files) :=
  FileTree.textFrom_of_bytes (show (treeFor files).locate [] "b.yaml" = .ok ["b.yaml"] by rfl) rfl
    rfl rfl

/-- A pattern without blanks at its ends, for which both runs do the same. -/
theorem run_upgrade_eq_run_batch_secondForFirst :
    ((commandLineFor "a.tf").Spells (argumentsFor "a.tf") ∧
        (commandLineFor "a.tf").Asks secondForFirst ∧
        secondForFirst.IsTrimmed ∧ batchLine.Spells ["batch", "b.yaml"] ∧
        (commandLineFor "a.tf").AgreesWith batchLine (some "a.tf") false ∧
        secondForFirst.AloneIn (some "a.tf") false (batchNodeFor "a.tf")) ∧
      ∃ ending : Ending, ∃ after : FileTree,
        run (treeFor "a.tf") [] (argumentsFor "a.tf") =
            (ending.output ((commandLineFor "a.tf").invocation (.upgrade secondForFirst))
              (.ofUpgrade secondForFirst), after) ∧
          run (treeFor "a.tf") [] ["batch", "b.yaml"] =
            (ending.output (batchLine.invocation (.batch "b.yaml"))
              (.ofBatch ⟨filled? (some "a.tf"), false, [secondForFirst]⟩), after) ∧
          ending.Apart ((commandLineFor "a.tf").invocation (.upgrade secondForFirst))
            (batchLine.invocation (.batch "b.yaml")) (.ofUpgrade secondForFirst)
            (.ofBatch ⟨filled? (some "a.tf"), false, [secondForFirst]⟩) := by
  have spells := spells_commandLineFor (show Shape.ofArgument "a.tf" = .plain by decide)
  have agree : (commandLineFor "a.tf").AgreesWith batchLine (some "a.tf") false :=
    agreesWith_batchLine _
  have same : filled? (some "a.tf") = some "a.tf" := by decide
  have read := @ofText?_batchFor "a.tf" (by decide +kernel)
  have alone := aloneIn_batchNodeFor "a.tf"
  refine ⟨⟨spells, asks_commandLineFor _, isTrimmed_secondForFirst, spells_batchLine, agree, alone⟩,
    run_upgrade_eq_run_batch spells (proper_commandLineFor _)
      (asks_commandLineFor _) isTrimmed_secondForFirst
      spells_batchLine proper_batchLine ⟨rfl, rfl, by decide⟩ (same ▸ agree) ?_ read alone⟩
  rintro here ⟨⟩
  exact textFrom_treeFor "a.tf"

/-- The file of the module is changed by a run that comes to it. -/
theorem fileAt?_updateFiles_treeFor (files : String) :
    ((⟨[secondForFirst], false, false⟩ : Job).updateFiles (treeFor files)
      ["/a.tf"]).2.fileAt? ["a.tf"] ≠ (treeFor files).fileAt? ["a.tf"] := by
  let job : Job := ⟨[secondForFirst], false, false⟩
  have evaluated : (Document.read? firstVersion).map (fun d => ((job.report "/a.tf" d).written,
      (job.updateDocument d).2.text == firstVersion)) = some (true, false) := by
    decide +kernel
  obtain ⟨d, parsed, both⟩ := Option.map_eq_some_iff.mp evaluated
  obtain ⟨written, differs⟩ := Prod.mk.inj both
  have here : (treeFor files).place "/a.tf" = .ok ["a.tf"] := by rfl
  have before : (treeFor files).fileAt? ["a.tf"] =
      some { bytes := firstVersion.toUTF8, mode := 0o644 } := by rfl
  have loaded := Job.load_of_bytes here before rfl rfl parsed
  have updated := Job.updateFile_of_canWrite (fun _ _ _ => by rfl) loaded here written
  have after : (job.updateFiles (treeFor files) ["/a.tf"]).2 =
      (treeFor files).setBytes (job.updateDocument d).2.text.toUTF8 ["a.tf"] := by
    rw [Job.updateFiles_cons, updated]
    rfl
  rw [after, FileTree.fileAt?_setBytes_self _ before, before]
  intro same
  have bytes := congrArg File.bytes (Option.some.inj same)
  exact ne_of_beq_false differs (String.toByteArray_inj.mp bytes)

/-- A command with this pattern comes to no file. -/
theorem run_commandLineFor_blankInFront :
    (run (treeFor " a.tf") [] (argumentsFor " a.tf")).2 = treeFor " a.tf" := by
  let plan := Plan.ofUpgrade secondForFirst
  let inv := (commandLineFor " a.tf").invocation (.upgrade secondForFirst)
  have parsed : Invocation.ofArguments (argumentsFor " a.tf") = .ok inv :=
    Line.ofArguments_of_spells (spells_commandLineFor (by decide)) (proper_commandLineFor _)
      (Line.ofChoices_of_asks (asks_commandLineFor _))
  have samePattern : pattern inv plan = " a.tf" := by decide
  have folders : inv.workFolders = [] := by decide
  have nothing : (treeFor " a.tf").matching? (Path.ofLocation []) " a.tf" = some [] := by
    decide +kernel
  have ends :=
    congrArg Prod.snd (@carryOut_eq_conclude (treeFor " a.tf") [] inv plan fun _ _ => rfl)
  rw [Prod.map_snd, id, folders, samePattern] at ends
  rw [run, parsed, ends]
  simp only [conclude, enter, nothing, Job.updateFiles]

/-- A batch with this pattern comes to the file. -/
theorem run_batchLine_blankInFront :
    (run (treeFor " a.tf") [] ["batch", "b.yaml"]).2 ≠ treeFor " a.tf" := by
  let plan := Plan.ofBatch ⟨filled? (some " a.tf"), false, [secondForFirst]⟩
  let inv := batchLine.invocation (.batch "b.yaml")
  have parsed : Invocation.ofArguments ["batch", "b.yaml"] = .ok inv :=
    Line.ofArguments_of_spells spells_batchLine proper_batchLine
      (Line.ofChoices_of_asksForBatch ⟨rfl, rfl, by decide⟩)
  have planned : ∀ here, Enters (treeFor " a.tf") [] inv.workFolders here →
      inv.command.plan (treeFor " a.tf") here = .ok plan := by
    rintro here ⟨⟩
    exact Command.plan_of_aloneIn (textFrom_treeFor _) ofText?_batchFor_blankInFront
      (aloneIn_batchNodeFor " a.tf") isTrimmed_secondForFirst
  have samePattern : pattern inv plan = "a.tf" := by decide
  have sameJob : job inv plan = ⟨[secondForFirst], false, false⟩ := by decide
  have folders : inv.workFolders = [] := by decide
  have found : (treeFor " a.tf").matching? (Path.ofLocation []) "a.tf" = some ["/a.tf"] := by
    decide +kernel
  have ends := congrArg Prod.snd (carryOut_eq_conclude planned)
  rw [Prod.map_snd, id, folders, samePattern, sameJob] at ends
  rw [run, parsed, ends]
  simp only [conclude, enter, found]
  exact fun back =>
    fileAt?_updateFiles_treeFor " a.tf" (congrArg (FileTree.fileAt? · ["a.tf"]) back)

/-- A pattern with a blank in front of it means no file on a command line, and a file in a batch. -/
theorem run_upgrade_ne_run_batch_blankInFront :
    ((commandLineFor " a.tf").Spells (argumentsFor " a.tf") ∧
        (commandLineFor " a.tf").Asks secondForFirst ∧
        secondForFirst.IsTrimmed ∧ batchLine.Spells ["batch", "b.yaml"] ∧
        (commandLineFor " a.tf").AgreesWith batchLine (some " a.tf") false ∧
        (treeFor " a.tf").textFrom [] "b.yaml" = .ok (batchFor " a.tf") ∧
        Yaml.Node.ofText? (batchFor " a.tf") = some (batchNodeFor " a.tf") ∧
        secondForFirst.AloneIn (some " a.tf") false (batchNodeFor " a.tf")) ∧
      (run (treeFor " a.tf") [] (argumentsFor " a.tf")).2 = treeFor " a.tf" ∧
      (run (treeFor " a.tf") [] ["batch", "b.yaml"]).2 ≠ treeFor " a.tf" :=
  ⟨⟨spells_commandLineFor (by decide), asks_commandLineFor _, isTrimmed_secondForFirst,
      spells_batchLine, agreesWith_batchLine _, textFrom_treeFor _,
      ofText?_batchFor_blankInFront, aloneIn_batchNodeFor _⟩,
    run_commandLineFor_blankInFront, run_batchLine_blankInFront⟩

end Program

end TerraformPins
